import ShapeCheck.Fit.Object

/-! The check itself, in any surroundings and to any depth. -/

namespace ShapeCheck
variable {σ : Type}

/-- Whether a source fits a target. Questions nest at most `depth` deep, and a check that would
go deeper is a fault. -/
def check (ctx : Surroundings σ) : Nat → Ty → Ty → CheckM σ Verdict
  | 0, _, _ => throw .depthExceeded
  | depth + 1, source, target => Rule.answer ctx (check ctx depth) depth source target

/-- The check with nothing remembered from before, and nothing kept afterwards. -/
def checkAfresh (ctx : Surroundings σ) (depth : Nat) (source target : Ty) :
    ExceptT Fault (StateM σ) Verdict :=
  ExceptT.mk fun world =>
    let (result, state) := (check ctx depth source target).run.run ⟨Memo.empty, world⟩
    (result, state.world)

/-- Whether each of two types fits the other. -/
def equivalent (ctx : Surroundings σ) (depth : Nat) (a b : Ty) : CheckM σ Bool := do
  match ← check ctx depth a b with
  | some _ => pure false
  | none => return (← check ctx depth b a).isNone

/-- Surroundings in which a reference stands only for itself. -/
def Surroundings.detached (variance : Variance) (memoize : Bool) : Surroundings σ where
  variance := variance
  memoize := memoize
  unwrap := pure
  objectOf := fun fs index => Ty.objectOf fs index none

end ShapeCheck
