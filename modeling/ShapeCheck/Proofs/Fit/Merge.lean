import ShapeCheck.Proofs.Fit.Offers

/-! The properties of a type, as a relation between types determines them: wherever members of an
intersection share a property, the relation says which of its types is the narrower one. The
properties of one name are merged in the order of the members, whatever else is merged. -/

namespace ShapeCheck
variable {R R' : Ty → Ty → Prop} {Part : Ty → Prop} {H : Nat} {a b t : Ty} {ts : List Ty}
  {f g : Field Ty} {fs gs merged : List (Field Ty)} {rs : List (Option (List (Field Ty)))}
  {k : String}

namespace Ty

/-- An object or an intersection. -/
def isObjectLike : Ty → Bool
  | .object .. | .inter _ => true
  | _ => false

open Classical in
/-- The type of a property that is declared with two types. -/
noncomputable def narrower (R : Ty → Ty → Prop) (a b : Ty) : Ty :=
  if R a b then a
  else if R b a then b
  else if a.isObjectLike && b.isObjectLike then meet [a, b]
  else never

/-- The type of a property that is declared with several types, taken in turn. -/
noncomputable def narrowest (R : Ty → Ty → Prop) : List Ty → Ty
  | [] => never
  | t :: ts => ts.foldl (narrower R) t

theorem narrower_cases (R : Ty → Ty → Prop) (a b : Ty) :
    R a b ∧ narrower R a b = a ∨ R b a ∧ narrower R a b = b ∨
      ¬R a b ∧ ¬R b a ∧ (a.isObjectLike ∧ b.isObjectLike ∧ narrower R a b = meet [a, b] ∨
        narrower R a b = never) := by
  unfold narrower
  split
  · exact .inl ⟨‹_›, rfl⟩
  split
  · exact .inr (.inl ⟨‹_›, rfl⟩)
  split
  · rename_i ho
    rw [Bool.and_eq_true] at ho
    exact .inr (.inr ⟨‹_›, ‹_›, .inl ⟨ho.1, ho.2, rfl⟩⟩)
  · exact .inr (.inr ⟨‹_›, ‹_›, .inr rfl⟩)

open Classical in
theorem narrower_congr (hab : R a b ↔ R' a b) (hba : R b a ↔ R' b a) :
    narrower R a b = narrower R' a b :=
  if_congr hab rfl (if_congr hba rfl rfl)

theorem narrowest_snoc (R : Ty → Ty → Prop) (hne : ts ≠ []) (t : Ty) :
    narrowest R (ts ++ [t]) = narrower R (narrowest R ts) t := by
  obtain ⟨u, us, rfl⟩ := List.exists_cons_of_ne_nil hne
  simp [narrowest, List.foldl_append]

end Ty

/-- One property that is declared twice. -/
noncomputable def Field.mergeWith (R : Ty → Ty → Prop) (g f : Field Ty) : Field Ty :=
  ⟨g.name, Ty.narrower R g.type f.type, g.optional && f.optional⟩

namespace Member

/-- The properties of one more member added to those merged so far. -/
noncomputable def mergedFields (R : Ty → Ty → Prop) (merged : List (Field Ty)) :
    List (Field Ty) → List (Field Ty)
  | [] => merged
  | f :: fs =>
    match Field.find? merged f.name with
    | none => mergedFields R (merged ++ [f]) fs
    | some g => mergedFields R (Field.put (g.mergeWith R f) merged) fs

/-- The properties of members merged in turn; none as long as no member has any. -/
noncomputable def mergedMembers (R : Ty → Ty → Prop) (merged : Option (List (Field Ty))) :
    List (Option (List (Field Ty))) → Option (List (Field Ty))
  | [] => merged
  | none :: rs => mergedMembers R merged rs
  | some fs :: rs => mergedMembers R (some (mergedFields R (merged.getD []) fs)) rs

end Member

namespace Ty

mutual

/-- The properties of a type by a relation; none if it has none at all. -/
noncomputable def offersBy (R : Ty → Ty → Prop) : Ty → Option (List (Field Ty))
  | .object fs _ _ => some fs
  | .union ms => some (Member.sharedFields (offersListBy R ms))
  | .inter ms => Member.mergedMembers R none (offersListBy R ms)
  | _ => none

noncomputable def offersListBy (R : Ty → Ty → Prop) : List Ty → List (Option (List (Field Ty)))
  | [] => []
  | m :: ms => offersBy R m :: offersListBy R ms

end

mutual

/-- The index of an object, or the only one among the members of an intersection. -/
def soleIndex : Ty → Option (Index Ty)
  | .object _ i _ => i
  | .inter ms =>
    match soleIndexes ms with
    | [i] => some i
    | _ => none
  | _ => none

def soleIndexes : List Ty → List (Index Ty)
  | [] => []
  | m :: ms => (soleIndex m).toList ++ soleIndexes ms

end

theorem offersListBy_eq_map (R : Ty → Ty → Prop) (ms : List Ty) :
    offersListBy R ms = ms.map (offersBy R) := by
  induction ms with
  | nil => rfl
  | cons m ms ih => simp only [offersListBy, ih, List.map_cons]

theorem soleIndexes_eq_filterMap (ms : List Ty) : soleIndexes ms = ms.filterMap soleIndex := by
  induction ms with
  | nil => rfl
  | cons m ms ih => cases h : soleIndex m <;> simp [soleIndexes, ih, h]

open Classical in
/-- An index that all properties fit. -/
noncomputable def keptIndex (R : Ty → Ty → Prop) (fs : List (Field Ty)) (i : Option (Index Ty)) :
    Option (Index Ty) :=
  if ∀ j, i = some j → ∀ f ∈ fs, R f.type j.value then i else none

/-- A type as one object, by a relation; none if it has no properties at all. -/
noncomputable def combinedBy (R : Ty → Ty → Prop) (t : Ty) : Option Ty :=
  (offersBy R t).map fun fs => .object fs (keptIndex R fs t.soleIndex) none

theorem keptIndex_of_fits {i : Option (Index Ty)}
    (h : ∀ j, i = some j → ∀ f ∈ fs, R f.type j.value) : keptIndex R fs i = i := if_pos h

theorem keptIndex_of_misfit {i : Option (Index Ty)}
    (h : ¬∀ j, i = some j → ∀ f ∈ fs, R f.type j.value) : keptIndex R fs i = none := if_neg h

theorem keptIndex_eq_some {i : Option (Index Ty)} {j : Index Ty} (h : keptIndex R fs i = some j) :
    i = some j ∧ ∀ f ∈ fs, R f.type j.value := by
  unfold keptIndex at h
  split at h
  · rename_i hall
    exact ⟨h, hall j h⟩
  · cases h

end Ty

/-! Which types turn up. -/

/-- Types that taking types apart and merging their properties does not lead out of. -/
structure Ty.MergeClosed (Part : Ty → Prop) : Prop where
  within : ∀ {t : Ty}, Part t → Within .unnamed t
  any : Part Ty.any
  never : Part Ty.never
  child : ∀ {t u : Ty}, Part t → u ∈ t.children → Part u
  join : ∀ {ts : List Ty}, (∀ t ∈ ts, Part t) → Part (Ty.join ts)
  meet : ∀ {a b : Ty}, Part a → Part b → a.isObjectLike → b.isObjectLike → Part (Ty.meet [a, b])

/-- Properties of different names, with types of some kind below some height. -/
structure Field.Gathered (Part : Ty → Prop) (H : Nat) (fs : List (Field Ty)) : Prop where
  apart : Field.Apart fs
  type : ∀ f ∈ fs, Part f.type ∧ f.type.height < H

namespace Field.Gathered

theorem nil : Gathered Part H [] := ⟨List.nodup_nil, by simp⟩

theorem mono {K : Nat} (h : Gathered Part H fs) (hle : H ≤ K) : Gathered Part K fs :=
  ⟨h.apart, fun f hf => ⟨(h.type f hf).1, (h.type f hf).2.trans_le hle⟩⟩

theorem snoc (h : Gathered Part H fs) (hf : Part f.type ∧ f.type.height < H)
    (hnew : Field.find? fs f.name = none) : Gathered Part H (fs ++ [f]) :=
  ⟨h.apart.snoc hnew, List.forall_mem_append.mpr ⟨h.type, List.forall_mem_singleton.mpr hf⟩⟩

theorem put (h : Gathered Part H fs) (hf : Part f.type ∧ f.type.height < H) :
    Gathered Part H (Field.put f fs) := by
  refine ⟨h.apart.put, fun g hg => ?_⟩
  rcases Field.mem_put hg with rfl | hg
  · exact hf
  · exact h.type g hg

end Field.Gathered

namespace Ty.MergeClosed
variable (hP : Ty.MergeClosed Part)
include hP

theorem narrower (ha : Part a ∧ a.height < H) (hb : Part b ∧ b.height < H) :
    Part (Ty.narrower R a b) ∧ (Ty.narrower R a b).height < H := by
  rcases Ty.narrower_cases R a b with ⟨_, he⟩ | ⟨_, he⟩ | ⟨_, _, ⟨hao, hbo, he⟩ | he⟩
  · rwa [he]
  · rwa [he]
  · have hle : (Ty.meet [a, b]).height ≤ H - 1 := by
      apply Ty.height_meet
      intro t ht
      rcases List.mem_pair.mp ht with rfl | rfl
      · exact Nat.le_sub_one_of_lt ha.2
      · exact Nat.le_sub_one_of_lt hb.2
    rw [he]
    exact ⟨hP.meet ha.1 hb.1 hao hbo, by omega⟩
  · rw [he]
    exact ⟨hP.never, by rw [show Ty.never.height = 0 from Ty.height_prim _]; omega⟩

theorem mergedFields (hm : Field.Gathered Part H merged)
    (hf : ∀ f ∈ fs, Part f.type ∧ f.type.height < H) :
    Field.Gathered Part H (Member.mergedFields R merged fs) := by
  induction fs generalizing merged with
  | nil => exact hm
  | cons f fs ih =>
    obtain ⟨hf, hfs⟩ := List.forall_mem_cons.mp hf
    simp only [Member.mergedFields]
    cases hg : Field.find? merged f.name with
    | none => exact ih (hm.snoc hf hg) hfs
    | some g =>
      exact ih (hm.put (hP.narrower (hm.type g (Field.find?_eq_some hg).1) hf)) hfs

theorem mergedMembers {m : Option (List (Field Ty))}
    (hm : ∀ fs, m = some fs → Field.Gathered Part H fs)
    (hr : ∀ r ∈ rs, ∀ fs, r = some fs → Field.Gathered Part H fs)
    (h : Member.mergedMembers R m rs = some fs) : Field.Gathered Part H fs := by
  induction rs generalizing m with
  | nil => exact hm fs h
  | cons r rs ih =>
    obtain ⟨hr, hrs⟩ := List.forall_mem_cons.mp hr
    cases r with
    | none => exact ih hm hrs h
    | some gs =>
      refine ih ?_ hrs h
      rintro _ ⟨rfl⟩
      refine hP.mergedFields ?_ (hr gs rfl).type
      cases m with
      | none => exact .nil
      | some fs => exact hm fs rfl

theorem sharedFields (hr : ∀ r ∈ rs, ∀ fs, r = some fs → Field.Gathered Part H fs) :
    Field.Gathered Part H (Member.sharedFields rs) := by
  unfold Member.sharedFields
  split
  · exact .nil
  · exact .nil
  · rename_i first others hsome
    have hall : ∀ gs ∈ first :: others, Field.Gathered Part H gs := by
      intro gs hgs
      refine hr (some gs) ?_ gs rfl
      rw [Ledger.eq_map_some_of_mapM hsome]
      exact List.mem_map_of_mem hgs
    obtain ⟨hfirst, hothers⟩ := List.forall_mem_cons.mp hall
    refine ⟨hfirst.apart.sublist (Ledger.names_shared_sublist first others), fun g hg => ?_⟩
    obtain ⟨f, hf, hfg⟩ := List.mem_filterMap.mp hg
    have htypes : ∀ t ∈ f.type :: (Ledger.namesakes others f).map (·.type),
        Part t ∧ t.height < H := by
      refine List.forall_mem_cons.mpr ⟨hfirst.type f hf, List.forall_mem_map.mpr fun e he => ?_⟩
      obtain ⟨gs, hgs, he⟩ := List.mem_flatMap.mp he
      exact (hothers gs hgs).type e (Field.find?_eq_some (Option.mem_toList.mp he)).1
    have hle := Ty.height_join (n := H - 1) fun t ht => Nat.le_sub_one_of_lt (htypes t ht).2
    have hpos := (hfirst.type f hf).2
    rw [(Ledger.sharedField_eq_some hfg).2]
    exact ⟨hP.join fun t ht => (htypes t ht).1, by omega⟩

/-- The properties of a type are below it. -/
theorem offersBy (ht : Part t) (h : t.offersBy R = some fs) :
    Field.Gathered Part t.height fs := by
  induction t using Ty.child_induction generalizing fs with
  | step t ih =>
    have hmembers : ∀ {ms : List Ty}, t.children = ms → ∀ r ∈ ms.map (Ty.offersBy R), ∀ fs,
        r = some fs → Field.Gathered Part t.height fs := by
      rintro ms rfl r hr fs rfl
      obtain ⟨m, hm, he⟩ := List.mem_map.mp hr
      exact (ih m hm (hP.child ht hm) he).mono (Ty.height_le_of_child hm)
    cases t with
    | object gs i n =>
      cases h
      refine ⟨(hP.within ht).here.shaped, fun f hf => ?_⟩
      exact ⟨hP.child ht (Ty.field_mem_children hf),
        Ty.height_lt_of_child (Ty.field_mem_children hf) rfl⟩
    | union ms =>
      simp only [Ty.offersBy, Ty.offersListBy_eq_map, Option.some.injEq] at h
      subst h
      exact hP.sharedFields (hmembers rfl)
    | inter ms =>
      simp only [Ty.offersBy, Ty.offersListBy_eq_map] at h
      exact hP.mergedMembers (by simp) (hmembers rfl) h
    | _ => cases h

end Ty.MergeClosed

theorem Ty.mergeClosed_within {φ : Features} (hφ : φ.Bare) (hx : φ.inter) :
    Ty.MergeClosed (Ty.Within φ) where
  within h := h.unnamed hφ
  any := Ty.within_prim _
  never := Ty.within_prim _
  child h hu := h.child hu
  join := Ty.within_join
  meet ha hb _ _ := Ty.within_meet hx (by simpa using ⟨ha, hb⟩)

theorem Ty.mergeClosed_unnamed : Ty.MergeClosed (Ty.Within .unnamed) :=
  Ty.mergeClosed_within ⟨fun _ => rfl⟩ trivial

/-! Where two relations agree about the types that meet, properties are merged alike. -/

namespace Member

theorem mergedFields_congr (hf : Field.Apart fs)
    (h : ∀ f ∈ fs, ∀ g, Field.find? merged f.name = some g →
      g.mergeWith R f = g.mergeWith R' f) :
    mergedFields R merged fs = mergedFields R' merged fs := by
  induction fs generalizing merged with
  | nil => rfl
  | cons f fs ih =>
    obtain ⟨hnew, hfs⟩ := List.nodup_cons.mp hf
    obtain ⟨hhere, hrest⟩ := List.forall_mem_cons.mp h
    have hother : ∀ e ∈ fs, f.name ≠ e.name := fun e he hn =>
      hnew (List.mem_map.mpr ⟨e, he, hn.symm⟩)
    simp only [mergedFields]
    cases hg : Field.find? merged f.name with
    | none =>
      refine ih hfs fun e he g hfind => hrest e he g ?_
      simpa [Field.find?_append, Field.find?_cons, hother e he, Field.find?] using hfind
    | some g =>
      have hname : (g.mergeWith R' f).name = f.name := (Field.find?_eq_some hg).2
      dsimp only
      rw [hhere g hg]
      refine ih hfs fun e he d hfind => hrest e he d ?_
      rwa [Field.find?_put, hname, if_neg (hother e he)] at hfind

theorem mergedMembers_append (m : Option (List (Field Ty)))
    (rs rs' : List (Option (List (Field Ty)))) :
    mergedMembers R m (rs ++ rs') = mergedMembers R (mergedMembers R m rs) rs' := by
  induction rs generalizing m with
  | nil => rfl
  | cons r rs ih => cases r <;> exact ih _

theorem mergedMembers_eq_none {m : Option (List (Field Ty))} :
    mergedMembers R m rs = none ↔ m = none ∧ ∀ r ∈ rs, r = none := by
  induction rs generalizing m with
  | nil => simp [mergedMembers]
  | cons r rs ih => cases r <;> simp [mergedMembers, ih]

theorem mergedMembers_congr (hr : ∀ r ∈ rs, ∀ fs, r = some fs → Field.Apart fs)
    (h : ∀ qs fs, qs ++ [some fs] <+: rs → ∀ acc, mergedMembers R none qs = some acc →
      ∀ f ∈ fs, ∀ g, Field.find? acc f.name = some g → g.mergeWith R f = g.mergeWith R' f) :
    mergedMembers R none rs = mergedMembers R' none rs := by
  induction rs using List.reverseRecOn with
  | nil => rfl
  | append_singleton rs r ih =>
    have hrs := ih (fun r' hr' => hr r' (List.mem_append_left [r] hr')) fun qs fs hq =>
      h qs fs (hq.trans (List.prefix_append rs [r]))
    rw [mergedMembers_append, mergedMembers_append, ← hrs]
    cases r with
    | none => rfl
    | some fs =>
      refine congrArg some (mergedFields_congr (hr _ (by simp) fs rfl) ?_)
      intro f hf g hg
      cases hacc : mergedMembers R none rs with
      | none =>
        rw [hacc] at hg
        cases hg
      | some acc =>
        rw [hacc] at hg
        exact h rs fs (List.prefix_refl _) acc hacc f hf g hg

end Member

/-- The properties of one more member are merged with those of the members before it. -/
theorem Ty.offersBy_snoc (R : Ty → Ty → Prop) (ms : List Ty) (u : Ty) :
    (Ty.inter (ms ++ [u])).offersBy R =
      Member.mergedMembers R ((Ty.inter ms).offersBy R) [u.offersBy R] := by
  simp only [Ty.offersBy, Ty.offersListBy_eq_map, List.map_append, List.map_cons, List.map_nil,
    Member.mergedMembers_append]

/-! An object by the properties that are found in it. -/

namespace Field

/-- One more property of a name. -/
noncomputable def mergeOption (R : Ty → Ty → Prop) : Option (Field Ty) → Option (Field Ty) →
    Option (Field Ty)
  | none, o => o
  | some g, none => some g
  | some g, some f => some (g.mergeWith R f)

theorem mergeOption_none_right (o : Option (Field Ty)) : mergeOption R o none = o := by
  cases o <;> rfl

end Field

/-- The properties of one name are merged apart from the others. -/
theorem Member.find?_mergedFields (hf : Field.Apart fs) (k : String) :
    Field.find? (mergedFields R merged fs) k =
      Field.mergeOption R (Field.find? merged k) (Field.find? fs k) := by
  induction fs generalizing merged with
  | nil => exact (Field.mergeOption_none_right _).symm
  | cons f fs ih =>
    obtain ⟨hnew, hfs⟩ := List.nodup_cons.mp hf
    have hother : Field.find? fs f.name = none := Field.find?_eq_none.mpr hnew
    simp only [mergedFields]
    cases hg : Field.find? merged f.name with
    | none =>
      dsimp only
      rw [ih hfs, Field.find?_append, Field.find?_cons, Field.find?_cons]
      by_cases hk : f.name = k
      · subst hk
        simp [hg, hother, Field.mergeOption]
      · simp [hk, Field.find?]
    | some g =>
      dsimp only
      have hname : (g.mergeWith R f).name = f.name := (Field.find?_eq_some hg).2
      rw [ih hfs, Field.find?_put, Field.find?_cons, hname]
      by_cases hk : f.name = k
      · subst hk
        simp [hg, hother, Field.mergeOption]
      · simp [hk]

/-- The properties of one name, member by member. -/
theorem Member.find?_mergedMembers {m : Option (List (Field Ty))}
    (hr : ∀ r ∈ rs, ∀ fs, r = some fs → Field.Apart fs) (k : String) :
    (mergedMembers R m rs).bind (Field.find? · k) =
      (rs.map (·.bind (Field.find? · k))).foldl (Field.mergeOption R)
        (m.bind (Field.find? · k)) := by
  induction rs generalizing m with
  | nil => rfl
  | cons r rs ih =>
    obtain ⟨hr, hrs⟩ := List.forall_mem_cons.mp hr
    cases r with
    | none =>
      simp only [mergedMembers, ih hrs, List.map_cons, List.foldl_cons, Option.bind_none,
        Field.mergeOption_none_right]
    | some fs =>
      simp only [mergedMembers, ih hrs, List.map_cons, List.foldl_cons, Option.bind_some,
        find?_mergedFields (hr fs rfl)]
      cases m <;> rfl

end ShapeCheck
