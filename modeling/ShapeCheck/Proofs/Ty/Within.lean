import ShapeCheck.Proofs.Ty.Weight

/-! Types as programs bring them about, by the features that a program uses, and types whose
members can be found without a look at the names. -/

namespace ShapeCheck

/-- A field does not fit the index of its object. -/
def Fault.IsMisfit (e : Fault) : Prop := ∃ n t v, e = .defect (.indexMisfit n t v)

/-- What a program may contain: intersections, indexes, parts that are no part of any program, and
the names of its types. -/
structure Features where
  inter : Prop
  index : Prop
  malformed : Prop
  known : String → Bool

namespace Features
variable (φ : Features)

/-- The faults at which a program with these features may stop. -/
def Err (e : Fault) : Prop :=
  φ.malformed ∧ e ≠ .depthExceeded ∨ e.IsMisfit ∧ φ.inter ∧ φ.index

/-- What types of such a program look like on their outside. -/
structure Allows (t : Ty) : Prop where
  shaped : t.WellShaped
  index : ∀ {fs i n}, t = .object fs (some i) n → φ.index
  inter : ∀ {ms}, t = .inter ms → φ.inter
  ref : ∀ {n}, t = .ref n → φ.known n

variable {φ}

theorem allows_of_shaped {t : Ty} (h : t.WellShaped) (ho : ∀ fs i n, t ≠ .object fs i n)
    (hi : ∀ ms, t ≠ .inter ms) (hr : ∀ n, t ≠ .ref n) : φ.Allows t :=
  ⟨h, fun he => (ho _ _ _ he).elim, fun he => (hi _ he).elim, fun he => (hr _ he).elim⟩

theorem Err.ne_depthExceeded {e : Fault} (h : φ.Err e) : e ≠ .depthExceeded := by
  rcases h with h | ⟨⟨n, t, v, rfl⟩, _⟩
  · exact h.2
  · simp

end Features

namespace Ty
variable {φ : Features} {t u : Ty} {ts : List Ty}

abbrev Within (φ : Features) : Ty → Prop := Everywhere φ.Allows

theorem Within.proper (h : Within φ t) : t.Proper := h.imp fun _ ha => ha.shaped

theorem Within.orderly (h : Within φ t) : Everywhere Orderly t := by
  refine h.imp fun t ha => ?_
  cases t with
  | object fs i n => exact ha.shaped
  | _ => trivial

theorem within_prim (k : Prim) : Within φ (.prim k) :=
  .leaf (Features.allows_of_shaped trivial (by simp) (by simp) (by simp)) rfl

theorem within_literal (l : Literal) : Within φ (.literal l) :=
  .leaf (Features.allows_of_shaped trivial (by simp) (by simp) (by simp)) rfl

theorem within_ref {n : String} (h : φ.known n) : Within φ (.ref n) :=
  .leaf ⟨trivial, by simp, by simp, fun he => Ty.ref.inj he ▸ h⟩ rfl

theorem within_array (h : Within φ t) : Within φ (.array t) :=
  .mk (Features.allows_of_shaped trivial (by simp) (by simp) (by simp))
    fun _ hu => List.mem_singleton.mp hu ▸ h

theorem within_tuple (h : ∀ t ∈ ts, Within φ t) : Within φ (.tuple ts) :=
  .mk (Features.allows_of_shaped trivial (by simp) (by simp) (by simp)) h

theorem within_join (h : ∀ t ∈ ts, Within φ t) : Within φ (join ts) := by
  have hparts : ∀ u ∈ ts.flatMap unionParts, Within φ u := by
    intro u hu
    obtain ⟨t, ht, hut⟩ := List.mem_flatMap.mp hu
    exact (h t ht).unionPart hut
  have hshaped := wellShaped_join fun u hu => (hparts u hu).proper
  rcases join_cases ts with hm | he | ⟨ms, he, _, _, hs⟩
  · exact hparts _ hm
  · exact he ▸ within_prim _
  · rw [he] at hshaped ⊢
    exact .mk (Features.allows_of_shaped hshaped (by simp) (by simp) (by simp)) fun m hm =>
      hparts m (hs.subset hm)

theorem within_meet (hi : φ.inter) (h : ∀ t ∈ ts, Within φ t) : Within φ (meet ts) := by
  have hparts : ∀ u ∈ ts.flatMap interParts, Within φ u := by
    intro u hu
    obtain ⟨t, ht, hut⟩ := List.mem_flatMap.mp hu
    exact (h t ht).interPart hut
  have hshaped := wellShaped_meet fun u hu => (hparts u hu).proper
  rcases meet_cases ts with hm | he | he | ⟨ms, he, _, hs⟩
  · exact hparts _ hm
  · exact he ▸ within_prim _
  · exact he ▸ within_prim _
  · rw [he] at hshaped ⊢
    exact .mk ⟨hshaped, by simp, fun _ => hi, by simp⟩ fun m hm => hparts m (hs.subset hm)

theorem within_object {fs : List (Field Ty)} {i : Option (Index Ty)} {n : Option String}
    (ha : Field.Apart fs) (hf : ∀ f ∈ fs, Within φ f.type)
    (hi : ∀ j, i = some j → φ.index ∧ Within φ j.value) : Within φ (.object fs i n) := by
  refine .mk ⟨ha, fun {_ j _} he => ?_, by simp, by simp⟩ fun u hu => ?_
  · cases he
    exact (hi j rfl).1
  · rcases mem_children_object.mp hu with ⟨f, hf', rfl⟩ | ⟨j, hj, rfl⟩
    · exact hf f hf'
    · exact (hi j hj).2

theorem Within.index {fs : List (Field Ty)} {i : Option (Index Ty)} {n : Option String}
    (h : Within φ (.object fs i n)) : ∀ j, i = some j → φ.index ∧ Within φ j.value :=
  fun j hj => ⟨h.here.index (by rw [hj]), h.child (value_mem_children hj)⟩

theorem Within.field {fs : List (Field Ty)} {i : Option (Index Ty)} {n : Option String}
    (h : Within φ (.object fs i n)) : ∀ f ∈ fs, Within φ f.type :=
  fun _ hf => h.child (field_mem_children hf)

theorem within_func {ss : List (Signature Ty)} {r : Option Ty} (hne : (func ss r).WellShaped)
    (hs : ∀ s ∈ ss, ∀ u ∈ s.parts, Within φ u) (hr : ∀ u, r = some u → Within φ u) :
    Within φ (.func ss r) := by
  refine .mk (Features.allows_of_shaped hne (by simp) (by simp) (by simp)) fun u hu => ?_
  rcases mem_children_func.mp hu with h | ⟨s, hm, h⟩
  · exact hr u h
  · exact hs s hm u h

theorem Within.signature {ss : List (Signature Ty)} {r : Option Ty} (h : Within φ (.func ss r)) :
    ∀ s ∈ ss, ∀ u ∈ s.parts, Within φ u :=
  fun _ hs _ hu => h.child (part_mem_children_func hs hu)

theorem Within.receiver {ss : List (Signature Ty)} {r : Option Ty} (h : Within φ (.func ss r)) :
    ∀ u, r = some u → Within φ u :=
  fun _ hu => h.child (receiver_mem_children hu)

theorem within_ctor {ss : List (Signature Ty)} (hne : (ctor ss).WellShaped)
    (hs : ∀ s ∈ ss, ∀ u ∈ s.parts, Within φ u) : Within φ (.ctor ss) := by
  refine .mk (Features.allows_of_shaped hne (by simp) (by simp) (by simp)) fun u hu => ?_
  obtain ⟨s, hm, h⟩ := mem_children_ctor.mp hu
  exact hs s hm u h

theorem within_widen (h : Within φ t) : Within φ t.widen := by
  induction t using child_induction with
  | step t ih =>
    cases t with
    | literal l => exact within_prim _
    | union ms =>
      have hlist : ∀ us : List Ty, (∀ u ∈ us, u ∈ ms) → ∀ v ∈ widenList us, Within φ v := by
        intro us hus
        induction us with
        | nil => simp [widenList]
        | cons u us ihu =>
          obtain ⟨hu, hus⟩ := List.forall_mem_cons.mp hus
          exact List.forall_mem_cons.mpr ⟨ih u hu (h.child hu), ihu hus⟩
      exact within_join (hlist ms fun _ => id)
    | _ => exact h

/-- The parts of a type outside of its objects, functions and constructors. -/
def unguarded : Ty → List Ty
  | .array e => [e]
  | .tuple es => es
  | .union ms => ms
  | .inter ms => ms
  | _ => []

/-- No reference, and none among the members and elements, on every level outside of objects,
functions and constructors. -/
inductive Grounded : Ty → Prop
  | mk {t : Ty} (here : ∀ n, t ≠ .ref n) (parts : ∀ u ∈ t.unguarded, Grounded u) : Grounded t

theorem ref_or_not_ref (t : Ty) : (∃ n, t = .ref n) ∨ ∀ n, t ≠ .ref n := by
  by_cases h : ∃ n, t = .ref n
  · exact .inl h
  · exact .inr fun n he => h ⟨n, he⟩

theorem Grounded.not_ref (h : Grounded t) : ∀ n, t ≠ .ref n := by
  cases h with
  | mk h _ => exact h

theorem Grounded.part (h : Grounded t) : ∀ u ∈ t.unguarded, Grounded u := by
  cases h with
  | mk _ h => exact h

theorem Grounded.member {ms : List Ty} (h : Grounded t) (ht : t = .union ms ∨ t = .inter ms) :
    ∀ u ∈ ms, Grounded u := by
  rcases ht with rfl | rfl
  · exact h.part
  · exact h.part

theorem grounded_array (h : Grounded t) : Grounded (.array t) :=
  .mk (by simp) (List.forall_mem_singleton.mpr h)

theorem grounded_tuple (h : ∀ t ∈ ts, Grounded t) : Grounded (.tuple ts) := .mk (by simp) h

/-- Neither a reference nor made of members or elements. -/
def isDirect : Ty → Bool
  | .ref _ | .array _ | .tuple _ | .union _ | .inter _ => false
  | _ => true

theorem grounded_of_isDirect (h : t.isDirect) : Grounded t := by
  cases t with
  | ref n => cases h
  | array e => cases h
  | tuple es => cases h
  | union ms => cases h
  | inter ms => cases h
  | _ => exact .mk (by simp) (by simp [unguarded])

theorem grounded_prim (k : Prim) : Grounded (.prim k) := grounded_of_isDirect rfl

theorem grounded_join_meet (h : ∀ t ∈ ts, Grounded t) :
    Grounded (join ts) ∧ Grounded (meet ts) := by
  refine join_meet_hold grounded_prim (fun hb => ⟨fun ht => ht.member hb, fun hm => ?_⟩) h
  rcases hb with rfl | rfl
  · exact .mk (by simp) hm
  · exact .mk (by simp) hm

theorem grounded_join (h : ∀ t ∈ ts, Grounded t) : Grounded (join ts) := (grounded_join_meet h).1

theorem grounded_meet (h : ∀ t ∈ ts, Grounded t) : Grounded (meet ts) := (grounded_join_meet h).2

/-- What a name can be bound to. -/
structure Firm (φ : Features) (t : Ty) : Prop where
  within : Within φ t
  grounded : Grounded t

theorem firm_prim (k : Prim) : Firm φ (.prim k) := ⟨within_prim k, grounded_prim k⟩

end Ty
end ShapeCheck
