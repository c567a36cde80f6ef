import ShapeCheck.Proofs.Fit.Merge

/-! Assignability of types without references, intersections included, as the relation that the
rules define. A rule leads to types of lower rank only, so there is just one such relation. -/

namespace ShapeCheck
variable {R R' : Ty → Ty → Prop} {Part : Ty → Prop} {variance : Variance} {s t shape : Ty}
  {ms : List Ty} {fs gs : List (Field Ty)}

namespace Ty

def IsObject (t : Ty) : Prop := ∃ fs i n, t = .object fs i n

/-- A source fits a target by one of the rules, if the relation holds of what the rule asks about
and intersections are combined by it. -/
inductive FitsStep (variance : Variance) (R : Ty → Ty → Prop) : Ty → Ty → Prop
  | rule {s t : Ty} (h : (Reading.asIs variance).FitsBy R s t) : FitsStep variance R s t
  | toInter {s : Ty} {us : List Ty} (hs : ∀ ms, s ≠ .union ms) (h : ∀ u ∈ us, R s u) :
    FitsStep variance R s (.inter us)
  | combined {ms : List Ty} {shape t : Ty} (ht : t.IsObject)
    (hc : combinedBy R (.inter ms) = some shape) (h : R shape t) : FitsStep variance R (.inter ms) t
  | member {ms : List Ty} {m t : Ty} (hb : t.isBlend = false) (hn : t ≠ never)
    (hc : t.IsObject → combinedBy R (.inter ms) = none) (hm : m ∈ ms) (h : R m t) :
    FitsStep variance R (.inter ms) t

/-- Assignability: a source fits a target by one of the rules, and so on. -/
def Fits (variance : Variance) (s t : Ty) : Prop :=
  FitsStep variance (fun a b => ∃ _ : rank a b < rank s t, Fits variance a b) s t
termination_by rank s t
decreasing_by assumption

/-- The index of a type is that of an object inside of it. -/
theorem exists_object_of_soleIndex {j : Index Ty} (hchild : ∀ {t u : Ty}, Part t →
    u ∈ t.children → Part u) (ht : Part t) (h : t.soleIndex = some j) :
    ∃ fs n, Part (.object fs (some j) n) ∧ j.value.height < t.height := by
  induction t using child_induction with
  | step t ih =>
    cases t with
    | object fs i n =>
      obtain rfl : i = some j := h
      exact ⟨fs, n, ht, height_lt_of_child (value_mem_children rfl) rfl⟩
    | inter ms =>
      simp only [Ty.soleIndex, soleIndexes_eq_filterMap] at h
      split at h
      · rename_i i hone
        cases h
        have hmem : j ∈ ms.filterMap Ty.soleIndex := by simp [hone]
        obtain ⟨m, hm, hj⟩ := List.mem_filterMap.mp hmem
        obtain ⟨fs, n, ho, hlt⟩ := ih m hm (hchild ht hm) hj
        exact ⟨fs, n, ho, hlt.trans_le (height_le_of_child (t := .inter ms) hm)⟩
      · cases h
    | _ => cases h

/-- Types that comparing them by the relation does not lead out of: their parts, the types of
properties while they are merged member by member, and combined objects. -/
structure ComparisonClosed (R : Ty → Ty → Prop) (Part : Ty → Prop) : Prop where
  within : ∀ {t : Ty}, Part t → Within .unnamed t
  any : Part Ty.any
  child : ∀ {t u : Ty}, Part t → u ∈ t.children → Part u
  merged : ∀ {ms ns : List Ty} {fs : List (Field Ty)}, Part (.inter ms) → ns <+: ms →
    (Ty.inter ns).offersBy R = some fs → ∀ f ∈ fs, Part f.type
  shared : ∀ {ms : List Ty} {fs : List (Field Ty)}, Part (.union ms) →
    (Ty.union ms).offersBy R = some fs → ∀ f ∈ fs, Part f.type
  combined : ∀ {ms : List Ty} {shape : Ty}, Part (.inter ms) →
    (Ty.inter ms).combinedBy R = some shape → Part shape

/-- What an intersection is combined into. -/
structure Combined (Part : Ty → Prop) (R : Ty → Ty → Prop) (t : Ty) (fs : List (Field Ty))
    (i : Option (Index Ty)) : Prop where
  gathered : Field.Gathered Part t.height fs
  index : ∀ j, i = some j → (Part j.value ∧ j.value.height < t.height) ∧
    ∀ f ∈ fs, R f.type j.value
  given : ∀ j, i = some j → ∃ gs n, Part (.object gs (some j) n)

theorem combined_of_kept (hchild : ∀ {t u : Ty}, Part t → u ∈ t.children → Part u) (ht : Part t)
    (hg : Field.Gathered Part t.height fs) : Combined Part R t fs (keptIndex R fs t.soleIndex) := by
  have hobject : ∀ j, keptIndex R fs t.soleIndex = some j →
      ∃ gs n, Part (.object gs (some j) n) ∧ j.value.height < t.height := fun j hj =>
    exists_object_of_soleIndex hchild ht (keptIndex_eq_some hj).1
  refine ⟨hg, fun j hj => ?_, fun j hj => ?_⟩
  · obtain ⟨gs, n, hpart, hlt⟩ := hobject j hj
    exact ⟨⟨hchild hpart (value_mem_children rfl), hlt⟩, (keptIndex_eq_some hj).2⟩
  · obtain ⟨gs, n, hpart, -⟩ := hobject j hj
    exact ⟨gs, n, hpart⟩

namespace MergeClosed
variable (hP : MergeClosed Part)
include hP

theorem combined (ht : Part t) (h : t.combinedBy R = some shape) :
    ∃ fs i, shape = .object fs i none ∧ Combined Part R t fs i := by
  obtain ⟨fs, ho, rfl⟩ := Option.map_eq_some_iff.mp h
  exact ⟨fs, _, rfl, combined_of_kept hP.child ht (hP.offersBy ht ho)⟩

theorem prefix_merged {ns : List Ty} (h : Part (.inter ms)) (hn : ns <+: ms)
    (ho : (Ty.inter ns).offersBy R = some fs) : Field.Gathered Part (Ty.inter ms).height fs := by
  simp only [Ty.offersBy, offersListBy_eq_map] at ho
  refine hP.mergedMembers (by simp) ?_ ho
  rintro _ hr gs rfl
  obtain ⟨m, hm, he⟩ := List.mem_map.mp hr
  have hm : m ∈ ms := hn.subset hm
  exact (hP.offersBy (hP.child h hm) he).mono (height_le_of_child (t := .inter ms) hm)

theorem closed (hobject : ∀ {t : Ty} {fs : List (Field Ty)} {i : Option (Index Ty)}, Part t →
    Combined Part R t fs i → Part (.object fs i none)) : ComparisonClosed R Part where
  within := hP.within
  any := hP.any
  child := hP.child
  merged h hn ho f hf := ((hP.prefix_merged h hn ho).type f hf).1
  shared h ho f hf := ((hP.offersBy h ho).type f hf).1
  combined h hc := by
    obtain ⟨fs, i, rfl, hcombined⟩ := hP.combined h hc
    exact hobject h hcombined

end MergeClosed

theorem Combined.child {i : Option (Index Ty)} {u : Ty} (h : Combined Part R t fs i)
    (hu : u ∈ (Ty.object fs i none).children) : Part u := by
  rcases mem_children_object.mp hu with ⟨f, hf, rfl⟩ | ⟨j, hj, rfl⟩
  · exact (h.gathered.type f hf).1
  · exact (h.index j hj).1.1

theorem Combined.height_le {i : Option (Index Ty)} (h : Combined Part R t fs i) :
    (object fs i none).height ≤ t.height :=
  height_object (fun f hf => (h.gathered.type f hf).2) fun j hj => (h.index j hj).1.2

/-- An object in the place of an intersection is nearer to the end. -/
theorem Combined.rank_lt {i : Option (Index Ty)} (h : Combined Part R (.inter ms) fs i) (t : Ty) :
    rank (.object fs i none) t < rank (.inter ms) t := by
  have hnest : (Ty.object fs i none).nest < (Ty.inter ms).nest := by
    rw [nest_of_not_blend rfl]
    exact nest_pos rfl
  exact rank_lt_of_nest h.height_le le_rfl (Nat.add_lt_add_right hnest _)

theorem closed_within {φ : Features} (hφ : φ.Bare) (hx : φ.inter) :
    ComparisonClosed R (Within φ) := by
  refine (mergeClosed_within hφ hx).closed fun _ h => ?_
  refine within_object h.gathered.apart (fun f hf => h.child (field_mem_children hf)) fun j hj => ?_
  obtain ⟨gs, n, ho⟩ := h.given j hj
  exact ho.index j rfl

theorem closed_unnamed : ComparisonClosed R (Within .unnamed) :=
  closed_within ⟨fun _ => rfl⟩ trivial

namespace ComparisonClosed
variable (hP : ComparisonClosed R Part)
include hP

theorem prefix_gathered {ns : List Ty} (h : Part (.inter ms)) (hn : ns <+: ms)
    (ho : (Ty.inter ns).offersBy R = some fs) : Field.Gathered Part (Ty.inter ms).height fs := by
  have hg := mergeClosed_unnamed.prefix_merged (hP.within h) hn ho
  exact ⟨hg.apart, fun f hf => ⟨hP.merged h hn ho f hf, (hg.type f hf).2⟩⟩

theorem offersBy (ht : Part t) (h : t.offersBy R = some fs) : Field.Gathered Part t.height fs := by
  have hg := mergeClosed_unnamed.offersBy (hP.within ht) h
  refine ⟨hg.apart, fun f hf => ⟨?_, (hg.type f hf).2⟩⟩
  cases t with
  | object gs i n =>
    cases h
    exact hP.child ht (field_mem_children hf)
  | union ms => exact hP.shared ht h f hf
  | inter ms => exact hP.merged ht (List.prefix_refl ms) h f hf
  | _ => cases h

theorem soleIndex {j : Index Ty} (ht : Part t) (h : t.soleIndex = some j) :
    Part j.value ∧ j.value.height < t.height := by
  obtain ⟨gs, n, hpart, hlt⟩ := exists_object_of_soleIndex hP.child ht h
  exact ⟨hP.child hpart (value_mem_children rfl), hlt⟩

theorem of_combinedBy (ht : Part t) (h : t.combinedBy R = some shape) :
    ∃ fs i, shape = .object fs i none ∧ t.offersBy R = some fs ∧ i = keptIndex R fs t.soleIndex ∧
      Combined Part R t fs i := by
  obtain ⟨fs, ho, rfl⟩ := Option.map_eq_some_iff.mp h
  exact ⟨fs, _, rfl, ho, rfl, combined_of_kept hP.child ht (hP.offersBy ht ho)⟩

/-- Where two relations agree about the types below some height, members are merged alike. -/
theorem merged_congr {ns : List Ty} (ht : Part (.inter ms)) (hn : ns <+: ms)
    (hmember : ∀ m ∈ ms, m.offersBy R = m.offersBy R')
    (h : ∀ a b, Part a ∧ a.height < (Ty.inter ms).height →
      Part b ∧ b.height < (Ty.inter ms).height → (R a b ↔ R' a b)) :
    (Ty.inter ns).offersBy R = (Ty.inter ns).offersBy R' := by
  have hgathered : ∀ {m : Ty} {fs : List (Field Ty)}, m ∈ ns → m.offersBy R = some fs →
      Field.Gathered Part (Ty.inter ms).height fs := fun hm ho =>
    (hP.offersBy (hP.child ht (hn.subset hm)) ho).mono
      (height_le_of_child (t := .inter ms) (hn.subset hm))
  have hns : ns.map (Ty.offersBy R) = ns.map (Ty.offersBy R') :=
    List.map_congr_left fun m hm => hmember m (hn.subset hm)
  simp only [Ty.offersBy, offersListBy_eq_map, ← hns]
  refine Member.mergedMembers_congr ?_ ?_
  · rintro _ hr fs rfl
    obtain ⟨m, hm, he⟩ := List.mem_map.mp hr
    exact (hgathered hm he).apart
  · rintro qs fs ⟨rs, hq⟩ acc hacc f hf g hg
    rw [List.append_assoc, List.singleton_append] at hq
    obtain ⟨before, ls, rfl, rfl, hls⟩ := List.map_eq_append_iff.mp hq.symm
    obtain ⟨m, ls, rfl, hm, -⟩ := List.map_eq_cons_iff.mp hls
    have hft := (hgathered (by simp) hm).type f hf
    have hpre : (Ty.inter before).offersBy R = some acc := by
      simpa only [Ty.offersBy, offersListBy_eq_map] using hacc
    have hgt := (hP.prefix_gathered ht ((List.prefix_append before _).trans hn) hpre).type g
      (Field.find?_eq_some hg).1
    simp only [Field.mergeWith, narrower_congr (h _ _ hgt hft) (h _ _ hft hgt)]

theorem offersBy_congr (ht : Part t)
    (h : ∀ a b, Part a ∧ a.height < t.height → Part b ∧ b.height < t.height → (R a b ↔ R' a b)) :
    t.offersBy R = t.offersBy R' := by
  induction t using child_induction with
  | step t ih =>
    have hmember : ∀ m ∈ t.children, m.offersBy R = m.offersBy R' := fun m hm => by
      refine ih m hm (hP.child ht hm) fun a b ha hb => ?_
      have hle := height_le_of_child hm
      exact h a b (ha.imp_right (·.trans_le hle)) (hb.imp_right (·.trans_le hle))
    cases t with
    | union ms =>
      have hms : ms.map (Ty.offersBy R) = ms.map (Ty.offersBy R') := List.map_congr_left hmember
      simp only [Ty.offersBy, offersListBy_eq_map, hms]
    | inter ms => exact hP.merged_congr ht (List.prefix_refl ms) hmember h
    | _ => rfl

theorem combinedBy_congr (ht : Part t)
    (h : ∀ a b, Part a ∧ a.height < t.height → Part b ∧ b.height < t.height → (R a b ↔ R' a b)) :
    combinedBy R t = combinedBy R' t := by
  unfold combinedBy
  rw [← hP.offersBy_congr ht h]
  cases ho : t.offersBy R with
  | none => rfl
  | some fs =>
    have hiff : ∀ j, t.soleIndex = some j → ∀ f ∈ fs, (R f.type j.value ↔ R' f.type j.value) :=
      fun j hj f hf => h _ _ ((hP.offersBy ht ho).type f hf) (hP.soleIndex ht hj)
    have hindex : keptIndex R fs t.soleIndex = keptIndex R' fs t.soleIndex := by
      by_cases hall : ∀ j, t.soleIndex = some j → ∀ f ∈ fs, R f.type j.value
      · rw [keptIndex_of_fits hall, keptIndex_of_fits fun j hj f hf =>
          (hiff j hj f hf).mp (hall j hj f hf)]
      · rw [keptIndex_of_misfit hall, keptIndex_of_misfit fun hall' => hall fun j hj f hf =>
          (hiff j hj f hf).mpr (hall' j hj f hf)]
    simp only [Option.map_some, hindex]

end ComparisonClosed

theorem isBlend_of_single (h : Reading.Single t) : t.isBlend = false := by
  cases t with
  | union ms => exact (h.1 ms rfl).elim
  | inter ms => exact (h.2 ms rfl).elim
  | _ => rfl

section
variable (hP : ComparisonClosed R Part) (hs : Part s) (ht : Part t)
include hP hs ht

/-- A rule for single types asks about questions of lower rank only. -/
theorem fitsBy_imp_of_rank {R R' : Ty → Ty → Prop}
    (h : ∀ a b, Part a → Part b → rank a b < rank s t → R a b → R' a b)
    (hf : (Reading.asIs variance).FitsBy R s t) : (Reading.asIs variance).FitsBy R' s t := by
  have hpart : ∀ {u v : Ty}, Part u → u.height ≤ max s.height t.height →
      Reading.Single u → v ∈ u.children → Part v ∧ v.height < max s.height t.height :=
    fun hu hle hsingle hv =>
      ⟨hP.child hu hv, (height_lt_of_child hv (isBlend_of_single hsingle)).trans_le hle⟩
  refine hf.imp_of_parts (fun u => Part u ∧ u.height < max s.height t.height) ?_
    (fun hu v hv => hpart hs (le_max_left _ _) hu hv)
    (fun hu v hv => hpart ht (le_max_right _ _) hu hv)
    (fun a b ha hb => h a b ha.1 hb.1 (rank_lt_of_height ha.2 hb.2)) ?_ ?_
  · intro r hr
    unfold Reading.element
    split
    · rename_i e he
      obtain rfl : r = .array e := he
      exact ⟨hP.child hr.1 (element_mem_children e),
        (height_le_of_child (element_mem_children e)).trans_lt hr.2⟩
    · exact ⟨hP.any, by rw [height_prim]; exact Nat.zero_lt_of_lt hr.2⟩
  · rintro ms rfl m hm
    exact h m t (hP.child hs hm) ht (rank_lt_left t rfl hm)
  · rintro ms rfl m hm
    exact h s m hs (hP.child ht hm) (rank_lt_right s rfl hm)

/-- A rule asks about questions of lower rank only. -/
theorem FitsStep.congr
    (h : ∀ a b, Part a → Part b → rank a b < rank s t → (R a b ↔ R' a b)) :
    FitsStep variance R s t ↔ FitsStep variance R' s t := by
  have hcombined : ∀ ms, s = .inter ms → combinedBy R s = combinedBy R' s := by
    rintro ms rfl
    exact hP.combinedBy_congr hs fun a b ha hb => h a b ha.1 hb.1
      (rank_lt_of_height (lt_max_of_lt_left ha.2) (lt_max_of_lt_left hb.2))
  have hshape : ∀ {ms : List Ty} {shape : Ty}, s = .inter ms → combinedBy R s = some shape →
      (R shape t ↔ R' shape t) := by
    rintro ms shape rfl hc
    obtain ⟨fs, i, rfl, -, -, hcombined⟩ := hP.of_combinedBy hs hc
    exact h _ t (hP.combined hs hc) ht (hcombined.rank_lt t)
  have hleft : ∀ {m : Ty}, m ∈ s.children → s.isBlend → (R m t ↔ R' m t) := fun hm hb =>
    h _ t (hP.child hs hm) ht (rank_lt_left t hb hm)
  have hright : ∀ {m : Ty}, m ∈ t.children → t.isBlend → (R s m ↔ R' s m) := fun hm hb =>
    h s _ hs (hP.child ht hm) (rank_lt_right s hb hm)
  constructor
  · intro hf
    cases hf with
    | rule hf =>
      exact .rule (fitsBy_imp_of_rank hP hs ht (fun a b ha hb hlt => (h a b ha hb hlt).mp) hf)
    | toInter hsu hu => exact .toInter hsu fun u hm => (hright hm rfl).mp (hu u hm)
    | combined hto hc hr =>
      exact .combined hto (hcombined _ rfl ▸ hc) ((hshape rfl hc).mp hr)
    | member hb hn hc hm hr =>
      exact .member hb hn (fun hto => hcombined _ rfl ▸ hc hto) hm ((hleft hm rfl).mp hr)
  · intro hf
    cases hf with
    | rule hf =>
      exact .rule (fitsBy_imp_of_rank hP hs ht (fun a b ha hb hlt => (h a b ha hb hlt).mpr) hf)
    | toInter hsu hu => exact .toInter hsu fun u hm => (hright hm rfl).mpr (hu u hm)
    | combined hto hc hr =>
      rw [← hcombined _ rfl] at hc
      exact .combined hto hc ((hshape rfl hc).mpr hr)
    | member hb hn hc hm hr =>
      exact .member hb hn (fun hto => (hcombined _ rfl).trans (hc hto)) hm ((hleft hm rfl).mpr hr)

end

/-- Assignability is what the rules say of it. -/
theorem fits_iff (hs : Within .unnamed s) (ht : Within .unnamed t) :
    Fits variance s t ↔ FitsStep variance (Fits variance) s t := by
  rw [Fits]
  exact FitsStep.congr closed_unnamed hs ht fun a b _ _ hlt =>
    ⟨fun ⟨_, h⟩ => h, fun h => ⟨hlt, h⟩⟩

/-- A misfit is seen at once only if the target is `never` or both are scalars. -/
theorem never_or_scalars_of_immediate {m : Mismatch} (h : Rule.immediate s t = some (some m)) :
    t = never ∨ Rule.isScalar s ∧ Rule.isScalar t := by
  unfold Rule.immediate at h
  split at h
  · cases h
  split at h
  · exact .inl (Inquiry.isNever_iff.mp ‹_›)
  split at h
  · cases h
  split at h
  · cases h
  split at h
  · exact .inr (by simpa using ‹(Rule.isScalar s && Rule.isScalar t) = true›)
  · cases h

/-- A misfit seen at once is one by the rules for intersections too. -/
theorem not_fitsStep_of_immediate {m : Mismatch} (h : Rule.immediate s t = some (some m)) :
    ¬FitsStep variance R s t := by
  have hplain := never_or_scalars_of_immediate h
  intro hf
  cases hf with
  | rule hf => exact Inquiry.immediate_unfit h hf
  | toInter => simp [Rule.isScalar] at hplain
  | combined hto =>
    obtain ⟨gs, w, n, rfl⟩ := hto
    simp [Rule.isScalar] at hplain
  | member _ hn => simp [Rule.isScalar, hn] at hplain

section
variable (hs : Within .unnamed s) (ht : Within .unnamed t)
include hs ht

theorem fits_of_immediate (h : Rule.immediate s t = some none) : Fits variance s t :=
  (fits_iff hs ht).mpr (.rule (Inquiry.immediate_fits h))

theorem not_fits_of_immediate {m : Mismatch} (h : Rule.immediate s t = some (some m)) :
    ¬Fits variance s t :=
  fun hf => not_fitsStep_of_immediate h ((fits_iff hs ht).mp hf)

end

/-- An intersection fits a single type by its combined object, or by a member. -/
theorem fitsStep_inter_iff (hund : Inquiry.Undecided (.inter ms) t) (hb : t.isBlend = false) :
    FitsStep variance R (.inter ms) t ↔
      (∃ shape, t.IsObject ∧ combinedBy R (.inter ms) = some shape ∧ R shape t) ∨
        (t.IsObject → combinedBy R (.inter ms) = none) ∧ ∃ m ∈ ms, R m t := by
  constructor
  · intro hf
    cases hf with
    | rule hf =>
      cases hf with
      | equal he => exact (hund.differ he).elim
      | toAny => exact (hund.toAny rfl).elim
      | toUnion => cases hb
    | toInter => cases hb
    | combined hto hc hr => exact .inl ⟨_, hto, hc, hr⟩
    | member _ _ hc hm hr => exact .inr ⟨hc, _, hm, hr⟩
  · rintro (⟨shape, hto, hc, hr⟩ | ⟨hc, m, hm, hr⟩)
    · exact .combined hto hc hr
    · exact .member hb hund.toNever hc hm hr

end Ty
end ShapeCheck
