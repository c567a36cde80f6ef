import ShapeCheck.Diagnostic
import ShapeCheck.Ty.Display

/-! The first place where a source type fails to fit a target type. -/

namespace ShapeCheck

/-- One step into a type. -/
inductive Segment where
  | field (name : String)
  | element
  | position (i : Nat)
  | param (name : String)
  | result
  | receiver
  | key
deriving DecidableEq, Repr

def Segment.text : Segment → String
  | .field name => name
  | .element => "[]"
  | .position i => "[" ++ toString i ++ "]"
  | .param name => "(" ++ name ++ ")"
  | .result => "(return)"
  | .receiver => "(this)"
  | .key => "[key]"

/-- What went wrong: the types differ, a required property is missing, or a property breaks an
index. -/
inductive Flaw where
  | unfit | missing | index
deriving DecidableEq, Repr

def Flaw.kind : Flaw → Diagnostic.Kind
  | .unfit => .typeMismatch
  | .missing => .missingRequiredProperty
  | .index => .indexSignatureViolation

inductive Detail where
  | member (type : Ty)
  | lengths (source target : Nat)
  | optionalInSource
  | unprovided (arguments : Nat) (param : String)
deriving Repr

def Detail.text : Detail → String
  | .member t => "Member '" ++ t.display ++ "' does not fit."
  | .lengths m n =>
    "Source has " ++ toString m ++ " element(s) but target requires " ++ toString n ++ "."
  | .optionalInSource => "It is optional in the source type."
  | .unprovided n p =>
    "Target provides " ++ toString n ++ " argument(s) but source requires parameter '" ++ p ++ "'."

/-- The types at the failing place, and the path to it with the outermost step first. A missing
property blames the two objects. -/
structure Mismatch where
  flaw : Flaw
  expected : Option Ty
  actual : Option Ty
  path : List Segment
  detail : Option Detail
deriving Repr

/-- The outcome of a check: none when the source fits. -/
abbrev Verdict := Option Mismatch

namespace Mismatch

/-- A source that does not fit its target, at the place itself. -/
def unfit (target source : Ty) (detail : Option Detail) : Mismatch :=
  ⟨.unfit, some target, some source, [], detail⟩

/-- The same mismatch seen from one step further out. -/
def within (m : Mismatch) (segment : Segment) : Mismatch :=
  { m with path := segment :: m.path }

/-- Steps are joined by points, except in front of brackets. -/
def locationFrom (rendered : String) : List Segment → String
  | [] => rendered
  | s :: ss =>
    let point := if rendered != "" && !s.text.startsWith "[" then "." else ""
    locationFrom (rendered ++ point ++ s.text) ss

def location (m : Mismatch) : String := locationFrom "" m.path

/-- The innermost step of the path. -/
def lastStep (m : Mismatch) : Option String := m.path.getLast?.map (·.text)

def shownType : Option Ty → String
  | none => "<none>"
  | some t => t.display

def headline (m : Mismatch) : String :=
  let property := m.lastStep.getD "None"
  let actual := shownType m.actual
  let expected := shownType m.expected
  match m.flaw with
  | .missing =>
    "Property '" ++ property ++ "' is missing in type '" ++ actual ++ "' but required in type '"
      ++ expected ++ "'."
  | .index =>
    "Property '" ++ property ++ "' of type '" ++ actual
      ++ "' is not assignable to index signature type '" ++ expected ++ "'."
  | .unfit => "Type '" ++ actual ++ "' is not assignable to type '" ++ expected ++ "'."

/-- The whole message; a type that does not fit is located when it lies inside. -/
def message (m : Mismatch) : String :=
  let text := match m.detail with
    | none => m.headline
    | some d => m.headline ++ " " ++ d.text
  if m.flaw = .unfit && !m.path.isEmpty then "At '" ++ m.location ++ "': " ++ text else text

end Mismatch
end ShapeCheck
