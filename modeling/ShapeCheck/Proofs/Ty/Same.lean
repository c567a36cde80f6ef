import Mathlib.Data.List.Forall2
import Mathlib.Data.List.Perm.Subperm
import ShapeCheck.Proofs.Ty.Children
import ShapeCheck.Ty.Same
import ShapeCheck.Ty.Parts

/-! Equality of types as a relation, shape by shape. It is reflexive and transitive everywhere,
and symmetric where no union or intersection holds a member twice. -/

namespace ShapeCheck

theorem forall₂_mem_left {α β : Type} {R : α → β → Prop} {as : List α} {bs : List β}
    (h : List.Forall₂ R as bs) {a : α} (ha : a ∈ as) : ∃ b ∈ bs, R a b := by
  induction h with
  | nil => cases ha
  | cons hr _ ih =>
    rcases List.mem_cons.mp ha with rfl | ha
    · exact ⟨_, List.mem_cons_self, hr⟩
    · obtain ⟨b, hb, hab⟩ := ih ha
      exact ⟨b, List.mem_cons_of_mem _ hb, hab⟩

theorem forall₂_mem_right {α β : Type} {R : α → β → Prop} {as : List α} {bs : List β}
    (h : List.Forall₂ R as bs) {b : β} (hb : b ∈ bs) : ∃ a ∈ as, R a b := by
  induction h with
  | nil => cases hb
  | cons hr _ ih =>
    rcases List.mem_cons.mp hb with rfl | hb
    · exact ⟨_, List.mem_cons_self, hr⟩
    · obtain ⟨a, ha, hab⟩ := ih hb
      exact ⟨a, List.mem_cons_of_mem _ ha, hab⟩

theorem Number.same_iff {a b : Number} : a.same b ↔ a.quantity = b.quantity := by
  simp [Number.same]

namespace Literal
variable {a b c : Literal}

theorem same_refl (a : Literal) : a.same a := by
  cases a <;> simp [same, Number.same_iff]

theorem same_symm (h : a.same b) : b.same a := by
  cases a <;> cases b <;> simp_all [same, Number.same_iff]

theorem same_trans (h : a.same b) (h' : b.same c) : a.same c := by
  cases a <;> cases b <;> cases c <;> simp_all [same, Number.same_iff]

theorem base_eq_of_same (h : a.same b) : a.base = b.base := by
  cases a <;> cases b <;> simp_all [same, base]

end Literal

/-- Two properties that agree up to the equality of their types. -/
structure Field.Same (f g : Field Ty) : Prop where
  name : f.name = g.name
  optional : f.optional = g.optional
  type : f.type.same g.type

structure Index.Same (i j : Index Ty) : Prop where
  key : i.key = j.key
  value : i.value.same j.value

structure Param.Same (p q : Param Ty) : Prop where
  name : p.name = q.name
  optional : p.optional = q.optional
  rest : p.rest = q.rest
  type : p.type.same q.type

structure Signature.Same (s u : Signature Ty) : Prop where
  params : List.Forall₂ Param.Same s.params u.params
  result : s.result.same u.result

namespace Ty
variable {t u : Ty}

theorem sameList_iff {as bs : List Ty} :
    sameList as bs ↔ List.Forall₂ (fun a b => a.same b = true) as bs := by
  induction as generalizing bs with
  | nil => cases bs <;> simp [sameList]
  | cons a as ih => cases bs <;> simp [sameList, ih]

theorem includedIn_iff {as bs : List Ty} :
    includedIn as bs ↔ ∀ a ∈ as, ∃ b ∈ bs, a.same b := by
  induction as with
  | nil => simp [includedIn]
  | cons a as ih => simp [includedIn, ih]

theorem sameFields_iff {fs gs : List (Field Ty)} :
    sameFields fs gs ↔ List.Forall₂ Field.Same fs gs := by
  induction fs generalizing gs with
  | nil => cases gs <;> simp [sameFields]
  | cons f fs ih =>
    cases gs with
    | nil => simp [sameFields]
    | cons g gs =>
      simp only [sameFields, Bool.and_eq_true, beq_iff_eq, ih, List.forall₂_cons]
      exact and_congr_left' ⟨fun h => ⟨h.1.1, h.1.2, h.2⟩, fun h => ⟨⟨h.1, h.2⟩, h.3⟩⟩

theorem sameParams_iff {ps qs : List (Param Ty)} :
    sameParams ps qs ↔ List.Forall₂ Param.Same ps qs := by
  induction ps generalizing qs with
  | nil => cases qs <;> simp [sameParams]
  | cons p ps ih =>
    cases qs with
    | nil => simp [sameParams]
    | cons q qs =>
      simp only [sameParams, Bool.and_eq_true, beq_iff_eq, ih, List.forall₂_cons]
      exact and_congr_left'
        ⟨fun h => ⟨h.1.1.1, h.1.1.2, h.1.2, h.2⟩, fun h => ⟨⟨⟨h.1, h.2⟩, h.3⟩, h.4⟩⟩

theorem sameSignatures_iff {ss us : List (Signature Ty)} :
    sameSignatures ss us ↔ List.Forall₂ Signature.Same ss us := by
  induction ss generalizing us with
  | nil => cases us <;> simp [sameSignatures]
  | cons s ss ih =>
    cases us with
    | nil => simp [sameSignatures]
    | cons u us =>
      simp only [sameSignatures, Bool.and_eq_true, sameParams_iff, ih, List.forall₂_cons]
      exact and_congr_left' ⟨fun h => ⟨h.1, h.2⟩, fun h => ⟨h.1, h.2⟩⟩

/-! What equals a type of a given shape. -/

section
attribute [local simp] same

theorem same_prim_iff {k : Prim} : (prim k).same t ↔ t = prim k := by
  cases t with
  | prim j => simpa using eq_comm
  | _ => simp

theorem same_literal_iff {l : Literal} :
    (literal l).same t ↔ ∃ m, t = literal m ∧ l.same m := by
  cases t <;> simp

theorem same_array_iff {a : Ty} : (array a).same t ↔ ∃ b, t = array b ∧ a.same b := by
  cases t <;> simp

theorem same_tuple_iff {as : List Ty} :
    (tuple as).same t ↔ ∃ bs, t = tuple bs ∧ List.Forall₂ (fun a b => a.same b = true) as bs := by
  cases t <;> simp [sameList_iff]

theorem same_object_iff {fs : List (Field Ty)} {index : Option (Index Ty)}
    {name : Option String} :
    (object fs index name).same t ↔ ∃ gs index' name', t = object gs index' name' ∧
      List.Forall₂ Field.Same fs gs ∧ Option.Rel Index.Same index index' := by
  cases t with
  | object gs index' name' =>
    cases index <;> cases index' <;> simp [sameFields_iff]
    exact ⟨fun h => ⟨h.1.1, h.1.2, h.2⟩, fun h => ⟨⟨h.1, h.2.key⟩, h.2.value⟩⟩
  | _ => cases index <;> simp

theorem same_union_iff {as : List Ty} :
    (union as).same t ↔ ∃ bs, t = union bs ∧ as.length = bs.length ∧
      ∀ a ∈ as, ∃ b ∈ bs, a.same b := by
  cases t <;> simp [includedIn_iff]

theorem same_inter_iff {as : List Ty} :
    (inter as).same t ↔ ∃ bs, t = inter bs ∧ as.length = bs.length ∧
      ∀ a ∈ as, ∃ b ∈ bs, a.same b := by
  cases t <;> simp [includedIn_iff]

theorem same_func_iff {ss : List (Signature Ty)} {receiver : Option Ty} :
    (func ss receiver).same t ↔ ∃ us receiver', t = func us receiver' ∧
      List.Forall₂ Signature.Same ss us ∧
      Option.Rel (fun a b => Ty.same a b = true) receiver receiver' := by
  cases t with
  | func us receiver' => cases receiver <;> cases receiver' <;> simp [sameSignatures_iff]
  | _ => cases receiver <;> simp

theorem same_ctor_iff {ss : List (Signature Ty)} :
    (ctor ss).same t ↔ ∃ us, t = ctor us ∧ List.Forall₂ Signature.Same ss us := by
  cases t <;> simp [sameSignatures_iff]

theorem same_ref_iff {n : String} : (ref n).same t ↔ t = ref n := by
  cases t with
  | ref m => simpa using eq_comm
  | _ => simp

end

theorem same_refl (t : Ty) : t.same t := by
  induction t using child_induction with
  | step t ih =>
    have hs : ∀ ss : List (Signature Ty), (∀ s ∈ ss, ∀ u ∈ s.parts, u.same u) →
        List.Forall₂ Signature.Same ss ss := by
      intro ss h
      refine List.forall₂_same.mpr fun s hs => ⟨List.forall₂_same.mpr fun p hp => ?_, ?_⟩
      · exact ⟨rfl, rfl, rfl, h s hs _ (mem_parts.mpr (.inl ⟨p, hp, rfl⟩))⟩
      · exact h s hs _ (mem_parts.mpr (.inr rfl))
    cases t with
    | prim k => exact same_prim_iff.mpr rfl
    | literal l => exact same_literal_iff.mpr ⟨l, rfl, l.same_refl⟩
    | array a => exact same_array_iff.mpr ⟨a, rfl, ih a (element_mem_children _)⟩
    | tuple as => exact same_tuple_iff.mpr ⟨as, rfl, List.forall₂_same.mpr ih⟩
    | object fs index name =>
      refine same_object_iff.mpr ⟨fs, index, name, rfl, List.forall₂_same.mpr fun f hf => ?_, ?_⟩
      · exact ⟨rfl, rfl, ih _ (field_mem_children hf)⟩
      · cases index with
        | none => exact .none
        | some i => exact .some ⟨rfl, ih _ (value_mem_children rfl)⟩
    | union as => exact same_union_iff.mpr ⟨as, rfl, rfl, fun a ha => ⟨a, ha, ih a ha⟩⟩
    | inter as => exact same_inter_iff.mpr ⟨as, rfl, rfl, fun a ha => ⟨a, ha, ih a ha⟩⟩
    | func ss receiver =>
      refine same_func_iff.mpr ⟨ss, receiver, rfl, hs ss fun s hs u hu => ?_, ?_⟩
      · exact ih u (part_mem_children_func hs hu)
      · cases receiver with
        | none => exact .none
        | some r => exact .some (ih r (receiver_mem_children rfl))
    | ctor ss =>
      refine same_ctor_iff.mpr ⟨ss, rfl, hs ss fun s hs u hu => ?_⟩
      exact ih u (part_mem_children_ctor hs hu)
    | ref n => exact same_ref_iff.mpr rfl

theorem forall₂_trans {α β γ : Type} {R : α → β → Prop} {S : β → γ → Prop} {T : α → γ → Prop}
    {as : List α} {bs : List β} {cs : List γ} (h : ∀ a ∈ as, ∀ b c, R a b → S b c → T a c)
    (hab : List.Forall₂ R as bs) (hbc : List.Forall₂ S bs cs) : List.Forall₂ T as cs := by
  induction hab generalizing cs with
  | nil => cases hbc; exact .nil
  | cons hr _ ih =>
    cases hbc with
    | cons hs hbc =>
      exact .cons (h _ (by simp) _ _ hr hs) (ih (fun a ha => h a (by simp [ha])) hbc)

theorem forall₂_symm {α β : Type} {R : α → β → Prop} {S : β → α → Prop}
    {as : List α} {bs : List β} (h : ∀ a ∈ as, ∀ b, R a b → S b a)
    (hab : List.Forall₂ R as bs) : List.Forall₂ S bs as := by
  induction hab with
  | nil => exact .nil
  | cons hr _ ih => exact .cons (h _ (by simp) _ hr) (ih fun a ha => h a (by simp [ha]))

theorem same_trans {a b c : Ty} (h : a.same b) (h' : b.same c) : a.same c := by
  induction a using child_induction generalizing b c with
  | step a ih =>
    have hs : ∀ ss us vs : List (Signature Ty), (∀ s ∈ ss, ∀ u ∈ s.parts, u ∈ a.children) →
        List.Forall₂ Signature.Same ss us → List.Forall₂ Signature.Same us vs →
        List.Forall₂ Signature.Same ss vs := by
      intro ss us vs hm
      refine forall₂_trans fun s hs u v hsu huv => ⟨?_, ?_⟩
      · refine forall₂_trans (fun p hp q r hpq hqr => ?_) hsu.params huv.params
        have hpr := ih _ (hm s hs _ (mem_parts.mpr (.inl ⟨p, hp, rfl⟩))) hpq.type hqr.type
        exact ⟨hpq.name.trans hqr.name, hpq.optional.trans hqr.optional,
          hpq.rest.trans hqr.rest, hpr⟩
      · exact ih _ (hm s hs _ (mem_parts.mpr (.inr rfl))) hsu.result huv.result
    cases a with
    | prim k => cases same_prim_iff.mp h; exact h'
    | literal l =>
      obtain ⟨m, rfl, hm⟩ := same_literal_iff.mp h
      obtain ⟨n, rfl, hn⟩ := same_literal_iff.mp h'
      exact same_literal_iff.mpr ⟨n, rfl, Literal.same_trans hm hn⟩
    | array a =>
      obtain ⟨b, rfl, hb⟩ := same_array_iff.mp h
      obtain ⟨c, rfl, hc⟩ := same_array_iff.mp h'
      exact same_array_iff.mpr ⟨c, rfl, ih a (element_mem_children _) hb hc⟩
    | tuple as =>
      obtain ⟨bs, rfl, hb⟩ := same_tuple_iff.mp h
      obtain ⟨cs, rfl, hc⟩ := same_tuple_iff.mp h'
      refine same_tuple_iff.mpr ⟨cs, rfl, forall₂_trans (fun a ha b c hab hbc => ?_) hb hc⟩
      exact ih a ha hab hbc
    | object fs index name =>
      obtain ⟨gs, jndex, _, rfl, hf, hi⟩ := same_object_iff.mp h
      obtain ⟨es, kndex, _, rfl, hg, hj⟩ := same_object_iff.mp h'
      refine same_object_iff.mpr ⟨es, kndex, _, rfl, ?_, ?_⟩
      · refine forall₂_trans (fun f hf g e hfg hge => ?_) hf hg
        have hfe := ih _ (field_mem_children hf) hfg.type hge.type
        exact ⟨hfg.name.trans hge.name, hfg.optional.trans hge.optional, hfe⟩
      · cases hi with
        | none => exact hj
        | @some i j hij =>
          cases hj with
          | some hjk =>
            have hik := ih _ (value_mem_children rfl) hij.value hjk.value
            exact .some ⟨hij.key.trans hjk.key, hik⟩
    | union as =>
      obtain ⟨bs, rfl, hl, hb⟩ := same_union_iff.mp h
      obtain ⟨cs, rfl, hl', hc⟩ := same_union_iff.mp h'
      refine same_union_iff.mpr ⟨cs, rfl, hl.trans hl', fun a ha => ?_⟩
      obtain ⟨b, hbm, hab⟩ := hb a ha
      obtain ⟨c, hcm, hbc⟩ := hc b hbm
      exact ⟨c, hcm, ih a ha hab hbc⟩
    | inter as =>
      obtain ⟨bs, rfl, hl, hb⟩ := same_inter_iff.mp h
      obtain ⟨cs, rfl, hl', hc⟩ := same_inter_iff.mp h'
      refine same_inter_iff.mpr ⟨cs, rfl, hl.trans hl', fun a ha => ?_⟩
      obtain ⟨b, hbm, hab⟩ := hb a ha
      obtain ⟨c, hcm, hbc⟩ := hc b hbm
      exact ⟨c, hcm, ih a ha hab hbc⟩
    | func ss receiver =>
      obtain ⟨us, receiver', rfl, hu, hr⟩ := same_func_iff.mp h
      obtain ⟨vs, receiver'', rfl, hv, hr'⟩ := same_func_iff.mp h'
      refine same_func_iff.mpr ⟨vs, receiver'', rfl, ?_, ?_⟩
      · exact hs ss us vs (fun s hs u hu => part_mem_children_func hs hu) hu hv
      · cases hr with
        | none => exact hr'
        | some hr =>
          cases hr' with
          | some hr' => exact .some (ih _ (receiver_mem_children rfl) hr hr')
    | ctor ss =>
      obtain ⟨us, rfl, hu⟩ := same_ctor_iff.mp h
      obtain ⟨vs, rfl, hv⟩ := same_ctor_iff.mp h'
      refine same_ctor_iff.mpr ⟨vs, rfl, ?_⟩
      exact hs ss us vs (fun s hs u hu => part_mem_children_ctor hs hu) hu hv
    | ref n => cases same_ref_iff.mp h; exact h'

/-- What the constructors of types see to: no member twice and two at least, no field name
twice, and callables with a signature whose parameters are in order. -/
def WellShaped : Ty → Prop
  | .union ms | .inter ms => 2 ≤ ms.length ∧ ms.Pairwise fun a b => a.same b = false
  | .object fs _ _ => (fs.map (·.name)).Nodup
  | .func ss _ | .ctor ss =>
    ss ≠ [] ∧ ∀ s ∈ ss, Signature.checkParams false s.params = .ok ()
  | _ => True

instance (ps : List (Param Ty)) : Decidable (Signature.checkParams false ps = .ok ()) :=
  match Signature.checkParams false ps with
  | .ok () => isTrue rfl
  | .error _ => isFalse nofun

instance : DecidablePred WellShaped
  | .union ms | .inter ms =>
    inferInstanceAs (Decidable (2 ≤ ms.length ∧ ms.Pairwise fun a b => a.same b = false))
  | .object fs _ _ => inferInstanceAs (Decidable (fs.map (·.name)).Nodup)
  | .func ss _ | .ctor ss =>
    inferInstanceAs (Decidable
      (ss ≠ [] ∧ ∀ s ∈ ss, Signature.checkParams false s.params = .ok ()))
  | .prim _ | .literal _ | .array _ | .tuple _ | .ref _ => isTrue trivial

/-- A type that is well shaped all through. -/
abbrev Proper : Ty → Prop := Everywhere WellShaped

/-- Types that differ have different partners among the types they equal. -/
theorem exists_partners {as bs : List Ty} (hd : as.Pairwise fun a b => a.same b = false)
    (hs : ∀ a ∈ as, ∀ b ∈ bs, a.same b → b.same a) (h : ∀ a ∈ as, ∃ b ∈ bs, a.same b) :
    ∃ f : Ty → Ty, (as.map f).Subperm bs ∧ ∀ a ∈ as, a.same (f a) := by
  classical
  choose! f hf using h
  have hn : (as.map f).Nodup := by
    refine List.pairwise_map.mpr (hd.imp_of_mem fun {a b} ha hb hab he => ?_)
    have hba := hs b hb (f b) (hf b hb).1 (hf b hb).2
    rw [← he] at hba
    rw [same_trans (hf a ha).2 hba] at hab
    cases hab
  refine ⟨f, hn.subperm fun b hb => ?_, fun a ha => (hf a ha).2⟩
  obtain ⟨a, ha, rfl⟩ := List.mem_map.mp hb
  exact (hf a ha).1

/-- As many members on either side, so that none of the second list is left over once the members
of the first, which differ, have found theirs. -/
theorem included_back {as bs : List Ty} (hl : as.length = bs.length)
    (hd : as.Pairwise fun a b => a.same b = false)
    (hs : ∀ a ∈ as, ∀ b ∈ bs, a.same b → b.same a) (h : ∀ a ∈ as, ∃ b ∈ bs, a.same b) :
    ∀ b ∈ bs, ∃ a ∈ as, b.same a := by
  obtain ⟨f, hsub, hf⟩ := exists_partners hd hs h
  have hp := hsub.perm_of_length_le (by simp [hl])
  intro b hb
  obtain ⟨a, ha, rfl⟩ := List.mem_map.mp (hp.mem_iff.mpr hb)
  exact ⟨a, ha, hs a ha _ hb (hf a ha)⟩

theorem same_symm {a b : Ty} (hp : Proper a) (h : a.same b) : b.same a := by
  induction a using child_induction generalizing b with
  | step a ih =>
    have hc : ∀ u ∈ a.children, ∀ v, u.same v → v.same u := fun u hu v => ih u hu (hp.child hu)
    have hs : ∀ ss us : List (Signature Ty), (∀ s ∈ ss, ∀ u ∈ s.parts, u ∈ a.children) →
        List.Forall₂ Signature.Same ss us → List.Forall₂ Signature.Same us ss := by
      intro ss us hm
      refine forall₂_symm fun s hs u hsu => ⟨?_, ?_⟩
      · refine forall₂_symm (fun p hp q hpq => ?_) hsu.params
        have hqp := hc _ (hm s hs _ (mem_parts.mpr (.inl ⟨p, hp, rfl⟩))) _ hpq.type
        exact ⟨hpq.name.symm, hpq.optional.symm, hpq.rest.symm, hqp⟩
      · exact hc _ (hm s hs _ (mem_parts.mpr (.inr rfl))) _ hsu.result
    cases a with
    | prim k => cases same_prim_iff.mp h; exact h
    | literal l =>
      obtain ⟨m, rfl, hm⟩ := same_literal_iff.mp h
      exact same_literal_iff.mpr ⟨l, rfl, Literal.same_symm hm⟩
    | array a =>
      obtain ⟨b, rfl, hb⟩ := same_array_iff.mp h
      exact same_array_iff.mpr ⟨a, rfl, hc a (element_mem_children _) b hb⟩
    | tuple as =>
      obtain ⟨bs, rfl, hb⟩ := same_tuple_iff.mp h
      exact same_tuple_iff.mpr ⟨as, rfl, forall₂_symm hc hb⟩
    | object fs index name =>
      obtain ⟨gs, jndex, _, rfl, hf, hi⟩ := same_object_iff.mp h
      refine same_object_iff.mpr ⟨fs, index, _, rfl, ?_, ?_⟩
      · refine forall₂_symm (fun f hf g hfg => ?_) hf
        have hgf := hc _ (field_mem_children hf) _ hfg.type
        exact ⟨hfg.name.symm, hfg.optional.symm, hgf⟩
      · cases hi with
        | none => exact .none
        | @some i j hij =>
          have hji := hc _ (value_mem_children rfl) _ hij.value
          exact .some ⟨hij.key.symm, hji⟩
    | union as =>
      obtain ⟨bs, rfl, hl, hb⟩ := same_union_iff.mp h
      have hback := included_back hl hp.here.2 (fun a ha b _ => hc a ha b) hb
      exact same_union_iff.mpr ⟨as, rfl, hl.symm, hback⟩
    | inter as =>
      obtain ⟨bs, rfl, hl, hb⟩ := same_inter_iff.mp h
      have hback := included_back hl hp.here.2 (fun a ha b _ => hc a ha b) hb
      exact same_inter_iff.mpr ⟨as, rfl, hl.symm, hback⟩
    | func ss receiver =>
      obtain ⟨us, receiver', rfl, hu, hr⟩ := same_func_iff.mp h
      refine same_func_iff.mpr ⟨ss, receiver, rfl, ?_, ?_⟩
      · exact hs ss us (fun s hs u hu => part_mem_children_func hs hu) hu
      · cases hr with
        | none => exact .none
        | some hr => exact .some (hc _ (receiver_mem_children rfl) _ hr)
    | ctor ss =>
      obtain ⟨us, rfl, hu⟩ := same_ctor_iff.mp h
      refine same_ctor_iff.mpr ⟨ss, rfl, ?_⟩
      exact hs ss us (fun s hs u hu => part_mem_children_ctor hs hu) hu
    | ref n => cases same_ref_iff.mp h; exact h

end Ty
end ShapeCheck
