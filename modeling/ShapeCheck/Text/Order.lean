/-! Stable sorting by a text key, compared character by character in code point order. -/

namespace ShapeCheck.Text
variable {α : Type}

/-- Puts an entry before the first one whose key is not smaller. -/
def insertByKey (x : String × α) : List (String × α) → List (String × α)
  | [] => [x]
  | y :: ys => if y.1 < x.1 then y :: insertByKey x ys else x :: y :: ys

/-- Entries in the order of their keys; entries with one key keep their order. -/
def sortByKey : List (String × α) → List (String × α)
  | [] => []
  | x :: xs => insertByKey x (sortByKey xs)

/-- The items in the order of a text computed from each. -/
def sortOn (key : α → String) (xs : List α) : List α :=
  (sortByKey (xs.map fun x => (key x, x))).map Prod.snd

end ShapeCheck.Text
