import ShapeCheck.Diagnostic
import ShapeCheck.Fault

/-!
Definitions that are run when their name is first needed. A recipe is a program over a few
requests to the environment: it may resolve further names, whatever comes of them, report
problems, leave checks for later and stop at a fault.
-/

namespace ShapeCheck

/-- A check that waits until every name is bound. -/
inductive Obligation where
  /-- The fields of an object fit its index. -/
  | index (fields : List (Field Ty)) (index : Index Ty) (name : Option String) (span : Option Span)
  /-- Properties an interface declares fit those it inherits. Each declared name comes with the
  span that a misfit is reported at. -/
  | refinement (interface : String) (declared : List (String × Option Span))
      (fields inherited : List (Field Ty))
deriving Repr

inductive Recipe (α : Type) where
  | done (result : Except Fault α)
  | resolve (name : String) (span : Option Span) (next : Except Fault Ty → Recipe α)
  | unwrap (type : Ty) (next : Except Fault Ty → Recipe α)
  | isDefined (name : String) (next : Bool → Recipe α)
  | report (problem : Diagnostic) (next : Recipe α)
  | postpone (duty : Obligation) (next : Recipe α)

namespace Recipe
variable {α β : Type}

def bind (f : α → Recipe β) : Recipe α → Recipe β
  | .done (.ok a) => f a
  | .done (.error e) => .done (.error e)
  | .resolve name span next => .resolve name span fun r => bind f (next r)
  | .unwrap type next => .unwrap type fun r => bind f (next r)
  | .isDefined name next => .isDefined name fun b => bind f (next b)
  | .report problem next => .report problem (bind f next)
  | .postpone duty next => .postpone duty (bind f next)

instance : Monad Recipe where
  pure a := .done (.ok a)
  bind r f := bind f r

instance : Inhabited (Recipe α) := ⟨.done (.error .depthExceeded)⟩

def fail (e : Fault) : Recipe α := .done (.error e)

def ofExcept (r : Except Fault α) : Recipe α := .done r

/-- A part of a type that may be malformed. -/
def ofDefect (r : Except Defect α) : Recipe α := .done (r.mapError .defect)

/-- What a name is bound to. -/
def named (name : String) (span : Option Span) : Recipe Ty := .resolve name span .done

/-- What a reference stands for. -/
def unwrapped (type : Ty) : Recipe Ty := .unwrap type .done

def knows (name : String) : Recipe Bool := .isDefined name pure

def say (problem : Diagnostic) : Recipe Unit := .report problem (pure ())

def later (duty : Obligation) : Recipe Unit := .postpone duty (pure ())

end Recipe
end ShapeCheck
