import ShapeCheck.Fit.Check

/-!
Receivers at call sites. Whether a call has a receiver is a matter of the call, not of the
function's type: a function taken from its object and called alone has none.
-/

namespace ShapeCheck

/-- A declared receiver that a call does not provide. `bound` is what the call binds, if
anything, and `mismatch` why that does not fit. -/
structure ReceiverViolation where
  required : Ty
  bound : Option Ty
  mismatch : Verdict
deriving Repr

def ReceiverViolation.message (v : ReceiverViolation) : String :=
  let found := match v.bound with
    | none => "void"
    | some t => t.display
  "The 'this' context of type '" ++ found ++ "' is not assignable to method's 'this' of type '"
    ++ v.required.display ++ "'."

namespace Call
variable {σ : Type} (ask : Ask σ)

/-- The receiver a call binds against the one its function requires. -/
def checkReceiver (required bound : Option Ty) : CheckM σ (Option ReceiverViolation) :=
  match required, bound with
  | none, _ => pure none
  | some r, none => pure (some ⟨r, none, none⟩)
  | some r, some b => do
    match ← ask b r with
    | none => pure none
    | some m => pure (some ⟨r, some b, some m⟩)

end Call
end ShapeCheck
