import Mathlib.Data.Set.Finite.Lattice
import ShapeCheck.Ty.Basic

/-! Types by their children: induction, what lies inside a type, and properties that hold all
through it. -/

namespace ShapeCheck.Ty
variable {t u v : Ty} {p q : Ty → Prop}

section
attribute [local simp] children size sizeList sizeFields sizeParams sizeSignatures

theorem size_le_sizeList {ts : List Ty} (h : u ∈ ts) : u.size ≤ sizeList ts := by
  induction ts with
  | nil => cases h
  | cons t ts ih =>
    simp only [sizeList]
    rcases List.mem_cons.mp h with rfl | h
    · omega
    · have := ih h
      omega

theorem size_le_sizeFields {fs : List (Field Ty)} (h : u ∈ fs.map (·.type)) :
    u.size ≤ sizeFields fs := by
  induction fs with
  | nil => cases h
  | cons f fs ih =>
    simp only [sizeFields]
    rcases List.mem_cons.mp h with rfl | h
    · exact Nat.le_add_right _ _
    · have := ih h
      omega

theorem size_le_sizeParams {ps : List (Param Ty)} (h : u ∈ ps.map (·.type)) :
    u.size ≤ sizeParams ps := by
  induction ps with
  | nil => cases h
  | cons p ps ih =>
    simp only [sizeParams]
    rcases List.mem_cons.mp h with rfl | h
    · exact Nat.le_add_right _ _
    · have := ih h
      omega

theorem size_le_sizeSignatures {ss : List (Signature Ty)} (h : u ∈ ss.flatMap (·.parts)) :
    u.size ≤ sizeSignatures ss := by
  induction ss with
  | nil => cases h
  | cons s ss ih =>
    simp only [sizeSignatures]
    rcases List.mem_append.mp h with h | h
    · rcases List.mem_append.mp h with h | h
      · have := size_le_sizeParams h
        omega
      · cases List.mem_singleton.mp h
        omega
    · have := ih h
      omega

theorem size_lt_of_mem_children (h : u ∈ t.children) : u.size < t.size := by
  cases t with
  | prim k | literal l | ref n => cases h
  | array e =>
    cases List.mem_singleton.mp h
    simp
  | tuple es | union es | inter es =>
    have := size_le_sizeList (show u ∈ es from h)
    simp only [size]
    omega
  | object fs index name =>
    rcases List.mem_append.mp h with h | h
    · have := size_le_sizeFields h
      cases index <;> simp only [size] <;> omega
    · cases index with
      | none => cases h
      | some i =>
        cases List.mem_singleton.mp h
        simp only [size]
        omega
  | func ss receiver =>
    rcases List.mem_append.mp h with h | h
    · cases receiver with
      | none => cases h
      | some r =>
        cases List.mem_singleton.mp h
        simp only [size]
        omega
    · have := size_le_sizeSignatures h
      cases receiver <;> simp only [size] <;> omega
  | ctor ss =>
    have := size_le_sizeSignatures (show u ∈ ss.flatMap (·.parts) from h)
    simp only [size]
    omega

theorem size_pos (t : Ty) : 0 < t.size := by
  cases t with
  | object fs index name => cases index <;> simp
  | func ss receiver => cases receiver <;> simp
  | _ => simp

/-- What holds of a type whenever it holds of its children holds of every type. -/
theorem child_induction {P : Ty → Prop} (step : ∀ t, (∀ u ∈ t.children, P u) → P t)
    (t : Ty) : P t := by
  induction hn : t.size using Nat.strong_induction_on generalizing t with
  | _ n ih =>
    apply step
    intro u hu
    exact ih u.size (hn ▸ size_lt_of_mem_children hu) u rfl

theorem mem_children_object {fs : List (Field Ty)} {index : Option (Index Ty)}
    {name : Option String} :
    u ∈ (object fs index name).children ↔
      (∃ f ∈ fs, f.type = u) ∨ ∃ i, index = some i ∧ i.value = u := by
  simp

theorem mem_children_func {ss : List (Signature Ty)} {receiver : Option Ty} :
    u ∈ (func ss receiver).children ↔ receiver = some u ∨ ∃ s ∈ ss, u ∈ s.parts := by
  simp

theorem mem_children_ctor {ss : List (Signature Ty)} :
    u ∈ (ctor ss).children ↔ ∃ s ∈ ss, u ∈ s.parts := by
  simp

end

theorem element_mem_children (e : Ty) : e ∈ (array e).children := List.mem_singleton_self e

theorem field_mem_children {fs : List (Field Ty)} {f : Field Ty} {index : Option (Index Ty)}
    {name : Option String} (h : f ∈ fs) : f.type ∈ (object fs index name).children :=
  mem_children_object.mpr (.inl ⟨f, h, rfl⟩)

theorem value_mem_children {fs : List (Field Ty)} {index : Option (Index Ty)} {i : Index Ty}
    {name : Option String} (h : index = some i) : i.value ∈ (object fs index name).children :=
  mem_children_object.mpr (.inr ⟨i, h, rfl⟩)

theorem receiver_mem_children {ss : List (Signature Ty)} {receiver : Option Ty}
    (h : receiver = some u) : u ∈ (func ss receiver).children :=
  mem_children_func.mpr (.inl h)

theorem part_mem_children_func {ss : List (Signature Ty)} {s : Signature Ty}
    {receiver : Option Ty} (hs : s ∈ ss) (hu : u ∈ s.parts) : u ∈ (func ss receiver).children :=
  mem_children_func.mpr (.inr ⟨s, hs, hu⟩)

theorem part_mem_children_ctor {ss : List (Signature Ty)} {s : Signature Ty} (hs : s ∈ ss)
    (hu : u ∈ s.parts) : u ∈ (ctor ss).children :=
  mem_children_ctor.mpr ⟨s, hs, hu⟩

theorem mem_parts {s : Signature Ty} :
    u ∈ s.parts ↔ (∃ p ∈ s.params, p.type = u) ∨ u = s.result := by
  simp [Signature.parts]

/-- A type that another one is or contains at some depth. -/
inductive Inside : Ty → Ty → Prop
  | here (t : Ty) : Inside t t
  | child {t u v : Ty} (h : u ∈ t.children) (hv : Inside u v) : Inside t v

theorem Inside.trans (h : Inside t u) (hu : Inside u v) : Inside t v := by
  induction h with
  | here t => exact hu
  | child h _ ih => exact .child h (ih hu)

theorem Inside.tail (h : Inside t u) (hv : v ∈ u.children) : Inside t v :=
  h.trans (.child hv (.here v))

theorem finite_inside (t : Ty) : {u | Inside t u}.Finite := by
  induction t using child_induction with
  | step t ih =>
    have hc : (⋃ u ∈ {u | u ∈ t.children}, {v | Inside u v}).Finite :=
      t.children.finite_toSet.biUnion fun u hu => ih u hu
    apply (hc.insert t).subset
    intro v hv
    cases hv with
    | here => exact Set.mem_insert _ _
    | child h hv => exact Set.mem_insert_of_mem _ (Set.mem_biUnion h hv)

/-- A property of a type and of everything inside it. -/
inductive Everywhere (p : Ty → Prop) : Ty → Prop
  | mk {t : Ty} (here : p t) (parts : ∀ u ∈ t.children, Everywhere p u) : Everywhere p t

theorem Everywhere.here (h : Everywhere p t) : p t := by
  cases h with
  | mk h _ => exact h

theorem Everywhere.leaf (h : p t) (hc : t.children = []) : Everywhere p t :=
  .mk h fun u hu => by simp [hc] at hu

theorem Everywhere.child (h : Everywhere p t) (hu : u ∈ t.children) : Everywhere p u := by
  cases h with
  | mk _ h => exact h u hu

theorem Everywhere.imp (h : Everywhere p t) (hi : ∀ u, p u → q u) : Everywhere q t := by
  induction h with
  | mk here _ ih => exact .mk (hi _ here) ih

/-- Whether a property holds all through a type that is not nested deeper than given. -/
def holdsWithin (p : Ty → Prop) [DecidablePred p] : Nat → Ty → Bool
  | 0, _ => false
  | n + 1, t => decide (p t) && t.children.all (holdsWithin p n)

theorem everywhere_of_holdsWithin [DecidablePred p] {n : Nat} (h : holdsWithin p n t) :
    Everywhere p t := by
  induction n generalizing t with
  | zero => cases h
  | succ n ih =>
    simp only [holdsWithin, Bool.and_eq_true, decide_eq_true_eq, List.all_eq_true] at h
    exact .mk h.1 fun u hu => ih (h.2 u hu)

end ShapeCheck.Ty
