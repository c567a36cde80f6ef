import ShapeCheck.Fit.Basic
import ShapeCheck.Ty.Combine
import ShapeCheck.Ty.Parts

/-!
The properties a value of some type offers.

A union offers what every member has, at the union of their types. An intersection offers what
any member has; where several have a name the narrower type counts, two objects are intersected,
and else nothing fits.
-/

namespace ShapeCheck.Member
variable {σ : Type} (ctx : Surroundings σ) (ask : Ask σ)

/-- One field of a union from the fields of its members, if all have it. -/
def sharedField (f : Field Ty) (others : List (List (Field Ty))) : Option (Field Ty) :=
  (others.mapM fun fs => Field.find? fs f.name).map fun gs =>
    ⟨f.name, Ty.join (f.type :: gs.map (·.type)), f.optional || gs.any (·.optional)⟩

/-- The fields all members have; a member without fields leaves none. -/
def sharedFields (members : List (Option (List (Field Ty)))) : List (Field Ty) :=
  match members.mapM id with
  | none | some [] => []
  | some (first :: others) => first.filterMap (sharedField · others)

def isObjectLike (t : Ty) : CheckM σ Bool := do
  match ← ctx.resolve t with
  | .object _ _ _ | .inter _ => pure true
  | _ => pure false

/-- The type of a property that two members declare. -/
def narrower (a b : Ty) : CheckM σ Ty := do
  if (← ask a b).isNone then pure a
  else if (← ask b a).isNone then pure b
  else if ← isObjectLike ctx a then
    if ← isObjectLike ctx b then pure (Ty.meet [a, b]) else pure Ty.never
  else pure Ty.never

/-- Adds fields to those collected so far; a name that is there already is narrowed in its place. -/
def mergeFields (merged : List (Field Ty)) : List (Field Ty) → CheckM σ (List (Field Ty))
  | [] => pure merged
  | f :: fs => do
    match Field.find? merged f.name with
    | none => mergeFields (merged ++ [f]) fs
    | some g =>
      let type ← narrower ctx ask g.type f.type
      mergeFields (Field.put ⟨g.name, type, g.optional && f.optional⟩ merged) fs

/-- Merges the fields of members in turn; none as long as no member has fields. -/
def mergeMembers (fieldsOf : Ty → CheckM σ (Option (List (Field Ty))))
    (merged : Option (List (Field Ty))) : List Ty → CheckM σ (Option (List (Field Ty)))
  | [] => pure merged
  | m :: ms => do
    match ← fieldsOf m with
    | none => mergeMembers fieldsOf merged ms
    | some fs => mergeMembers fieldsOf (some (← mergeFields ctx ask (merged.getD []) fs)) ms

/-- The properties a type offers; none for a type that has no properties at all. -/
def fieldsOf : Nat → Ty → CheckM σ (Option (List (Field Ty)))
  | 0, _ => throw .depthExceeded
  | depth + 1, t => do
    match ← ctx.resolve t with
    | .object fs _ _ => pure (some fs)
    | .union ms => return some (sharedFields (← ms.mapM (fieldsOf depth)))
    | .inter ms => mergeMembers ctx ask (fieldsOf depth) none ms
    | _ => pure none

/-- The index of an object, or the only one among the members of an intersection. -/
def indexOf : Nat → Ty → CheckM σ (Option (Index Ty))
  | 0, _ => throw .depthExceeded
  | depth + 1, t => do
    match ← ctx.resolve t with
    | .object _ index _ => pure index
    | .inter ms =>
      match (← ms.mapM (indexOf depth)).filterMap id with
      | [index] => pure (some index)
      | _ => pure none
    | _ => pure none

/-- The type of reading a property; none if it cannot be read. An optional one may be undefined. -/
def propertyType (depth : Nat) (t : Ty) (name : String) : CheckM σ (Option Ty) := do
  let t ← ctx.resolve t
  if t.isAny then pure (some Ty.any)
  else if t.isNever then pure (some Ty.never)
  else
    match (← fieldsOf ctx ask depth t).bind (Field.find? · name) with
    | some f => pure (some (if f.optional then Ty.join [f.type, Ty.undefined] else f.type))
    | none => return (← indexOf ctx depth t).map (·.value)

/-- An index that all fields fit. -/
def fittingIndex (fs : List (Field Ty)) : Option (Index Ty) → CheckM σ (Option (Index Ty))
  | none => pure none
  | some index => do
    match ← CheckM.firstMisfit (fun f => ask f.type index.value) fs with
    | none => pure (some index)
    | some _ => pure none

/-- An intersection as one object; none if no member has properties. -/
def combinedObject (depth : Nat) (t : Ty) : CheckM σ (Option Ty) := do
  match ← fieldsOf ctx ask depth t with
  | none => pure none
  | some fs =>
    let index ← fittingIndex ask fs (← indexOf ctx depth t)
    return some (← CheckM.ofExcept (ctx.objectOf fs index))

end ShapeCheck.Member
