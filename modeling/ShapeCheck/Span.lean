/-! Stretches of input that declarations, expressions and diagnostics point at. -/

namespace ShapeCheck

/-- Offsets from `start` up to, and without, `stop`; a line and column are for display only. -/
structure Span where
  start : Int
  stop : Int
  file : Option String
  line : Option Int
  column : Option Int
deriving DecidableEq, Repr

namespace Span

/-- The span of a node nobody could locate. -/
def nowhere : Span := ⟨0, 0, none, none, none⟩

def length (s : Span) : Int := s.stop - s.start

def contains (s : Span) (offset : Int) : Bool := s.start ≤ offset && offset < s.stop

/-- The smallest span that covers both. Line and column are those of the one that starts first. -/
def merge (a b : Span) : Span :=
  let first := if a.start ≤ b.start then a else b
  { start := min a.start b.start
    stop := max a.stop b.stop
    file := if a.file = b.file then a.file else none
    line := first.line
    column := first.column }

/-- The file shown for a span; an empty name counts as none. -/
def fileText (s : Span) : String :=
  match s.file with
  | none => "<input>"
  | some name => if name = "" then "<input>" else name

/-- Line and column where both are known, else the offsets. -/
def text (s : Span) : String :=
  match s.line, s.column with
  | some line, some column => s.fileText ++ ":" ++ toString line ++ ":" ++ toString column
  | _, _ => s.fileText ++ "[" ++ toString s.start ++ ":" ++ toString s.stop ++ "]"

/-- The text in front of a diagnostic. -/
def locate : Option Span → String
  | none => "<unknown>"
  | some s => s.text

end Span
end ShapeCheck
