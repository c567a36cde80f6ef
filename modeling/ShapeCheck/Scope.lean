import ShapeCheck.Text.Order
import ShapeCheck.Ty.Spelling

/-! Value names and their types. Binding gives a new scope and leaves the old one as it is. -/

namespace ShapeCheck

/-- Bindings, at most one for a name. -/
structure Scope where
  bindings : List (String × Ty)

namespace Scope

def empty : Scope := ⟨[]⟩

instance : Inhabited Scope := ⟨empty⟩

def lookup (s : Scope) (name : String) : Option Ty := s.bindings.lookup name

def contains (s : Scope) (name : String) : Bool := (s.lookup name).isSome

/-- Replaces the type of a name, or adds it. -/
def put (name : String) (t : Ty) : List (String × Ty) → List (String × Ty)
  | [] => [(name, t)]
  | b :: bs => if b.1 = name then (name, t) :: bs else b :: put name t bs

def bind (s : Scope) (name : String) (t : Ty) : Scope := ⟨put name t s.bindings⟩

def size (s : Scope) : Nat := s.bindings.length

/-- Bindings in the order of their names. -/
def sorted (s : Scope) : List (String × Ty) := Text.sortByKey s.bindings

/-- The bindings on one line, for listings. -/
def summary (s : Scope) : String :=
  let shown := s.sorted.map fun (n, t) => n ++ ": " ++ t.spelling
  "ValueScope(\x7b" ++ ", ".intercalate shown ++ "\x7d)"

end Scope
end ShapeCheck
