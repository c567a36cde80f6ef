import ShapeCheck.Number.Basic
import ShapeCheck.Text.Quoted

/-! Values as they are handed in, before anyone knows whether they fit where they stand. -/

namespace ShapeCheck

inductive Value where
  | null
  | bool (value : Bool)
  | number (value : Number)
  | text (value : String)
  | list (items : List Value)
deriving Repr

instance : Inhabited Value := ⟨.null⟩

namespace Value

mutual
/-- The value as messages show it. -/
def shown : Value → String
  | .null => "None"
  | .bool b => if b then "True" else "False"
  | .number n => n.text
  | .text s => Text.quoted s
  | .list vs => "[" ++ ", ".intercalate (shownAll vs) ++ "]"

def shownAll : List Value → List String
  | [] => []
  | v :: vs => v.shown :: shownAll vs
end

/-- The kind of a value as messages name it. -/
def kindName : Value → String
  | .null => "NoneType"
  | .bool _ => "bool"
  | .number (.int _) => "int"
  | .number (.double _) => "float"
  | .text _ => "str"
  | .list _ => "list"

/-- The number a value counts as; a truth value counts as zero or one. -/
def number? : Value → Option Number
  | .number n => some n
  | .bool b => some (.int (if b then 1 else 0))
  | _ => none

/-- Values that switch a setting off are the empty ones and zero. -/
def holds : Value → Bool
  | .null => false
  | .bool b => b
  | .number n => !n.same (.int 0)
  | .text s => s != ""
  | .list vs => !vs.isEmpty

mutual
/-- Equality of values; a truth value equals the number it counts as. -/
def same : Value → Value → Bool
  | .null, .null => true
  | .text a, .text b => a == b
  | .list as, .list bs => sameAll as bs
  | a, b =>
    match a.number?, b.number? with
    | some m, some n => m.same n
    | _, _ => false

def sameAll : List Value → List Value → Bool
  | [], [] => true
  | a :: as, b :: bs => a.same b && sameAll as bs
  | _, _ => false
end

end Value
end ShapeCheck
