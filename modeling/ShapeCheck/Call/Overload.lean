import ShapeCheck.Fit.Check

/-!
Choosing a signature for a call: the first, in the order of declaration, that accepts every
argument.
-/

namespace ShapeCheck

/-- Why a signature was passed over. -/
inductive Refusal where
  | count (given : Nat)
  | argument (i : Nat) (param : String) (mismatch : Mismatch)
  /-- The trailing arguments do not fit the rest parameter; they begin at position `i`. -/
  | trailing (i : Nat) (param : String) (mismatch : Mismatch)
deriving Repr

/-- A signature that was passed over, with its position. -/
structure Rejection where
  index : Nat
  signature : Signature Ty
  refusal : Refusal
deriving Repr

/-- The chosen signature with its position, and those passed over before it. -/
structure Resolution where
  chosen : Option (Nat × Signature Ty)
  rejections : List Rejection
deriving Repr

/-- The number of arguments a signature takes. -/
def Signature.arityText (s : Signature Ty) : String :=
  match s.maxArity with
  | none => "at least " ++ toString s.minArity
  | some n => if s.minArity = n then toString n else toString s.minArity ++ "-" ++ toString n

namespace Rejection

/-- The position of the first argument that does not fit; none if their number is wrong. -/
def argument? (r : Rejection) : Option Nat :=
  match r.refusal with
  | .count _ => none
  | .argument i _ _ | .trailing i _ _ => some i

def mismatch? (r : Rejection) : Option Mismatch :=
  match r.refusal with
  | .count _ => none
  | .argument _ _ m | .trailing _ _ m => some m

def reason (r : Rejection) : String :=
  match r.refusal with
  | .count given =>
    "expected " ++ r.signature.arityText ++ " argument(s), got " ++ toString given
  | .argument i p m =>
    "argument " ++ toString (i + 1) ++ " for parameter '" ++ p ++ "': " ++ m.message
  | .trailing _ p m => "rest arguments for parameter '" ++ p ++ "': " ++ m.message

def render (r : Rejection) (receiver : Option Ty) : String :=
  "overload " ++ toString (r.index + 1) ++ " " ++ r.signature.display receiver .arrow ++ ": "
    ++ r.reason

end Rejection

namespace Call
variable {σ : Type} (ask : Ask σ)

/-- Arguments against the parameters at their positions. -/
def matchArguments (i : Nat) : List (Param Ty) → List Ty → CheckM σ (Option Refusal)
  | p :: ps, a :: args => do
    match ← ask a p.type with
    | some m => pure (some (.argument i p.name m))
    | none => matchArguments (i + 1) ps args
  | _, _ => pure none

/-- The arguments beyond the positions, collected into one array, against the rest parameter. -/
def matchTrailing (s : Signature Ty) (args : List Ty) : CheckM σ (Option Refusal) :=
  match s.rest? with
  | none => pure none
  | some r => do
    let i := s.positional.length
    match ← ask (.array (Ty.join (args.drop i))) r.type with
    | some m => pure (some (.trailing i r.name m))
    | none => pure none

/-- The number of arguments is one the signature takes. -/
def accepts (s : Signature Ty) (given : Nat) : Bool :=
  s.minArity ≤ given && (s.rest?.isSome || given ≤ s.positional.length)

/-- Why a signature does not accept the arguments; none if it does. -/
def refusal? (s : Signature Ty) (args : List Ty) : CheckM σ (Option Refusal) := do
  if accepts s args.length then
    match ← matchArguments ask 0 s.positional args with
    | some r => pure (some r)
    | none => matchTrailing ask s args
  else pure (some (.count args.length))

/-- Tries signatures in turn, the next one at position `i`. -/
def resolveFrom (args : List Ty) (i : Nat) : List (Signature Ty) → CheckM σ Resolution
  | [] => pure ⟨none, []⟩
  | s :: ss => do
    match ← refusal? ask s args with
    | none => pure ⟨some (i, s), []⟩
    | some refusal =>
      let later ← resolveFrom args (i + 1) ss
      pure { later with rejections := ⟨i, s, refusal⟩ :: later.rejections }

def resolve (signatures : List (Signature Ty)) (args : List Ty) : CheckM σ Resolution :=
  resolveFrom ask args 0 signatures

/-- The problem of a call that no signature accepts, with a note for each. -/
def noMatch (callee : String) (resolution : Resolution) (args : List Ty) (span : Option Span)
    (receiver : Option Ty) : Diagnostic where
  kind := .noMatchingOverload
  message :=
    "No overload of '" ++ callee ++ "' matches this call with arguments ("
      ++ ", ".intercalate (args.map (·.display)) ++ ")."
  span := span
  expected := none
  actual := none
  notes := resolution.rejections.map (·.render receiver)

end Call
end ShapeCheck
