import ShapeCheck.Span
import ShapeCheck.Text.Quoted
import ShapeCheck.Ty.Same

/-! Reported problems. They are data, kept in the order in which they were found. -/

namespace ShapeCheck

inductive Diagnostic.Kind where
  | unresolvedReference | circularAlias | typeMismatch | missingRequiredProperty
  | indexSignatureViolation | noMatchingOverload | thisContextUnsatisfied
deriving DecidableEq, Repr

/-- A problem, where it stands, the types it is about and further lines of explanation. -/
structure Diagnostic where
  kind : Diagnostic.Kind
  message : String
  span : Option Span
  expected : Option Ty
  actual : Option Ty
  notes : List String
deriving Repr

namespace Diagnostic

def Kind.word : Kind → String
  | .unresolvedReference => "UnresolvedReference"
  | .circularAlias => "CircularAlias"
  | .typeMismatch => "TypeMismatch"
  | .missingRequiredProperty => "MissingRequiredProperty"
  | .indexSignatureViolation => "IndexSignatureViolation"
  | .noMatchingOverload => "NoMatchingOverload"
  | .thisContextUnsatisfied => "ThisContextUnsatisfied"

def Kind.all : List Kind :=
  [.unresolvedReference, .circularAlias, .typeMismatch, .missingRequiredProperty,
    .indexSignatureViolation, .noMatchingOverload, .thisContextUnsatisfied]

def Kind.ofWord? (w : String) : Option Kind := all.find? (·.word = w)

/-- A problem without types or notes. -/
def plain (kind : Kind) (message : String) (span : Option Span) : Diagnostic :=
  ⟨kind, message, span, none, none, []⟩

/-- Equality, with types compared by shape. -/
def same (a b : Diagnostic) : Bool :=
  a.kind == b.kind && a.message == b.message && a.span == b.span
    && Ty.sameOption a.expected b.expected && Ty.sameOption a.actual b.actual
    && a.notes == b.notes

/-- The line for a problem, and one more for each note. -/
def render (d : Diagnostic) : String :=
  let head := Span.locate d.span ++ ": error[" ++ d.kind.word ++ "]: " ++ d.message
  "\n".intercalate (head :: d.notes.map ("  note: " ++ ·))

def renderAll (ds : List Diagnostic) : String := "\n".intercalate (ds.map render)

/-- The problem on one line, for listings. -/
def summary (d : Diagnostic) : String :=
  "Diagnostic(" ++ d.kind.word ++ ", " ++ Text.quoted d.message ++ ", at="
    ++ Span.locate d.span ++ ")"

/-- The number of problems, for listings. -/
def summaryAll (ds : List Diagnostic) : String :=
  "DiagnosticCollector(" ++ toString ds.length ++ " diagnostics)"

def ofKind (kind : Kind) (ds : List Diagnostic) : List Diagnostic := ds.filter (·.kind = kind)

end Diagnostic
end ShapeCheck
