import ShapeCheck.Env.Recipe

/-! Named types, each in a cell that is filled when the name is first resolved. -/

namespace ShapeCheck

/-- How far a cell is: its recipe waits, runs, or has given a type. -/
inductive Progress where
  | waiting (recipe : Recipe Ty)
  | underWay
  | settled (type : Ty)

def Progress.isSettled : Progress → Bool
  | .settled _ => true
  | _ => false

structure Cell where
  name : String
  span : Option Span
  progress : Progress
  /-- Whether the name was needed for its own definition. -/
  circular : Bool

structure Env where
  /-- Cells in the order of their definitions. -/
  cells : List Cell
  /-- Names whose recipes run, the innermost first. -/
  resolving : List String
  /-- Undefined names that were reported. -/
  missing : List String
  /-- Problems in the order in which they were found. -/
  diagnostics : List Diagnostic
  /-- Checks left for later, in the order in which they arose. -/
  duties : List Obligation

abbrev EnvM := ExceptT Fault (StateM Env)

namespace Env

def empty : Env := ⟨[], [], [], [], []⟩

instance : Inhabited Env := ⟨empty⟩

def find? (env : Env) (name : String) : Option Cell := env.cells.find? (·.name = name)

def isDefined (env : Env) (name : String) : Bool := (env.find? name).isSome

def isCircular (env : Env) (name : String) : Bool :=
  match env.find? name with
  | some cell => cell.circular
  | none => false

def update (name : String) (f : Cell → Cell) (env : Env) : Env :=
  { env with cells := env.cells.map fun c => if c.name = name then f c else c }

def report (d : Diagnostic) (env : Env) : Env := { env with diagnostics := env.diagnostics ++ [d] }

def postpone (duty : Obligation) (env : Env) : Env := { env with duties := env.duties ++ [duty] }

/-- Registers a name with the recipe of its type. A name is defined once. -/
def define (name : String) (recipe : Recipe Ty) (span : Option Span) : EnvM Unit := do
  if (← get).isDefined name then throw (.defect (.alreadyDefined name))
  else modify fun env => { env with cells := env.cells ++ [⟨name, span, .waiting recipe, false⟩] }

def names (env : Env) : List String := env.cells.map (·.name)

/-- The counts of names and of those that are settled, for listings. -/
def summary (env : Env) : String :=
  "SymbolEnvironment(" ++ toString env.cells.length ++ " names, "
    ++ toString (env.cells.countP (·.progress.isSettled)) ++ " resolved)"

end Env
end ShapeCheck
