import ShapeCheck.Fit.Rules
import ShapeCheck.Ty.Walk

/-!
Objects are built from fields and an index that the fields must fit. Fields whose types wait for
the pass are not looked at here. The remaining types hold neither references nor callables, so
they are checked without any world and with the usual settings.
-/

namespace ShapeCheck

/-- Fields in turn against the value type of an index, up to the first that does not fit. -/
def fitIndex (ask : Ask Unit) (value : Ty) : List (Field Ty) → CheckM Unit Unit
  | [] => pure ()
  | f :: fs => do
    match ← ask f.type value with
    | none => fitIndex ask value fs
    | some _ => throw (.defect (.indexMisfit f.name f.type value))

/-- Checks the fields that can be checked here, with one new memo for all of them. -/
def checkIndex (ask : Ask Unit) (fields : List (Field Ty)) (value : Ty) : Except Fault Unit :=
  ((fitIndex ask value (fields.filter fun f => !f.type.defers)).run.run ⟨Memo.empty, ()⟩).1

/-- An object with distinct field names, whose fields fit its index by the given check. -/
def objectBy (ask : Ask Unit) (fields : List (Field Ty)) (index : Option (Index Ty))
    (name : Option String) : Except Fault Ty :=
  match Field.duplicate? fields with
  | some n => .error (.defect (.duplicateField n))
  | none =>
    match index with
    | none => .ok (.object fields none name)
    | some i =>
      if i.value.defers then .ok (.object fields (some i) name)
      else
        match checkIndex ask fields i.value with
        | .ok () => .ok (.object fields (some i) name)
        | .error e => .error e

/-- The check of types without references, to a given depth. Objects it builds are checked one
level further in. -/
def closedAsk : Nat → Ty → Ty → CheckM Unit Verdict
  | 0, _, _ => throw .depthExceeded
  | depth + 1, source, target =>
    Rule.answer
      { variance := .contravariant
        memoize := true
        unwrap := pure
        objectOf := fun fs index => objectBy (closedAsk depth) fs index none }
      (closedAsk depth) depth source target

/-- A depth that suffices for types of the given total size: each question but the one about a
combined intersection is about smaller types. -/
def closedDepth (size : Nat) : Nat := 4 * size + 4

namespace Ty

/-- An object type, or the reason why there is none. -/
def objectOf (fields : List (Field Ty)) (index : Option (Index Ty)) (name : Option String) :
    Except Fault Ty :=
  let size := sizeFields fields + (index.map (·.value.size)).getD 0
  objectBy (closedAsk (closedDepth size)) fields index name

end Ty
end ShapeCheck
