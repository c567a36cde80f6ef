import ShapeCheck.Fault
import ShapeCheck.Text.Order
import ShapeCheck.Ty.Same

/-!
Unions and intersections. `unionOf` and `interOf` take members as they are and refuse too few of
them; `join` and `meet` flatten, simplify and always give a type.
-/

namespace ShapeCheck.Ty

/-- The first of equal types. -/
def distinct : List Ty → List Ty
  | [] => []
  | t :: ts => t :: (distinct ts).filter fun u => !t.same u

/-- Members in the order in which they are stored. -/
def arrange (ts : List Ty) : List Ty := Text.sortOn spelling ts

def contains (ts : List Ty) (t : Ty) : Bool := ts.any fun u => u.same t

/-- The union of the given members as they are. -/
def unionOf (ts : List Ty) : Except Defect Ty :=
  let members := distinct ts
  if members.length < 2 then .error .thinUnion else .ok (.union (arrange members))

/-- The intersection of the given members as they are. -/
def interOf (ts : List Ty) : Except Defect Ty :=
  let members := distinct ts
  if members.length < 2 then .error .thinIntersection else .ok (.inter (arrange members))

/-- What a type brings to a union. -/
def unionParts : Ty → List Ty
  | .union ms => ms
  | t => [t]

/-- What a type brings to an intersection. -/
def interParts : Ty → List Ty
  | .inter ms => ms
  | t => [t]

/-- A literal next to its own primitive adds nothing to a union. -/
def absorbedBy (ts : List Ty) : Ty → Bool
  | .literal v => contains ts (.prim v.base)
  | _ => false

/-- The union of any types. `any` absorbs the rest, `never` and literals beside their primitive
vanish. -/
def join (ts : List Ty) : Ty :=
  let parts := ts.flatMap unionParts
  if parts.any isAny then any
  else
    let members := distinct (parts.filter fun t => !t.isNever)
    match members.filter fun t => !absorbedBy members t with
    | [] => never
    | [t] => t
    | ms => .union (arrange ms)

/-- The primitive a type is, or is a literal of, when values of different ones never meet. -/
def disjointKind? : Ty → Option Prim
  | .prim .any | .prim .never => none
  | .prim k => some k
  | .literal v => some v.base
  | _ => none

def literal? : Ty → Option Literal
  | .literal v => some v
  | _ => none

/-- At least two different primitives. -/
def kindsClash : List Prim → Bool
  | [] => false
  | k :: ks => ks.any (· != k)

/-- The intersection of any types. `never` absorbs the rest, then `any`; values that cannot meet
give `never`, and a literal replaces its own primitive. -/
def meet (ts : List Ty) : Ty :=
  let parts := ts.flatMap interParts
  if parts.any isNever then never
  else if parts.any isAny then any
  else
    let members := distinct parts
    let literals := members.filterMap literal?
    if kindsClash (members.filterMap disjointKind?) || 1 < literals.length then never
    else
      let kept := match literals with
        | [] => members
        | v :: _ => members.filter fun t => !t.same (.prim v.base)
      match kept with
      | [] => any
      | [t] => t
      | ms => .inter (arrange ms)

mutual
/-- Literals become their primitive, inside unions too. -/
def widen : Ty → Ty
  | .literal v => .prim v.base
  | .union ms => join (widenList ms)
  | t => t

def widenList : List Ty → List Ty
  | [] => []
  | t :: ts => t.widen :: widenList ts
end

end ShapeCheck.Ty
