import ShapeCheck.Ty.Basic

/-! Visiting a type and everything inside it. References are visited and not followed. -/

namespace ShapeCheck.Ty

/-- Takes the top of the stack and puts its children there, in order, `fuel` times at most. -/
def walkStack : Nat → List Ty → List Ty
  | 0, _ => []
  | _ + 1, [] => []
  | fuel + 1, t :: stack => t :: walkStack fuel (t.children ++ stack)

/-- The type and every type inside it, each before its own parts. Each step visits one type, so
the size of the type suffices. -/
def walk (t : Ty) : List Ty := walkStack t.size [t]

/-- References, whose meaning is not known yet, and callables, whose variance is a setting. -/
def isDeferring : Ty → Bool
  | .ref _ | .func _ _ | .ctor _ => true
  | _ => false

/-- An index signature that involves the type is checked by the pass, not when the object is
built. -/
def defers (t : Ty) : Bool := t.walk.any isDeferring

end ShapeCheck.Ty
