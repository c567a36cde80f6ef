import ShapeCheck.Proofs.Fit.CheckDecides
import ShapeCheck.Proofs.Ty.Laws

/-! Equal types have equal properties and fit equal types, as long as equal intersections list their
members in the same order. -/

namespace ShapeCheck
variable {R : Ty → Ty → Prop} {Part : Ty → Prop} {variance : Variance} {H : Nat}
  {a a' b b' s s' t t' : Ty} {fs fs' gs : List (Field Ty)}
  {rs rs' : List (Option (List (Field Ty)))} {k : String} {i i' w : Option (Index Ty)}
  {n m : Option String}

/-- Equal intersections list their members in the same order. -/
def Ty.Ordered (Part : Ty → Prop) : Prop :=
  ∀ ⦃ms ns : List Ty⦄, Part (.inter ms) → Part (.inter ns) → (Ty.inter ms).same (.inter ns) →
    List.Forall₂ (fun m n => Ty.same m n = true) ms ns

/-- A type of some kind below some height. -/
def Ty.Below (Part : Ty → Prop) (H : Nat) (t : Ty) : Prop := Part t ∧ t.height < H

/-- A name has equal properties, or none, in both. -/
def Field.SameByName (fs gs : List (Field Ty)) : Prop :=
  ∀ k, Option.Rel Field.Same (Field.find? fs k) (Field.find? gs k)

theorem Ty.isObjectLike_same (h : a.same b) : a.isObjectLike = b.isObjectLike := by
  cases a <;> cases b <;> simp_all [same, isObjectLike]

/-- Which of two types is the narrower one does not depend on how they are written. -/
theorem Ty.narrower_same (hP : ∀ {t : Ty}, Part t → t.Proper) (hR : Respects (Ty.Below Part H) R)
    (ha : Ty.Below Part H a) (ha' : Ty.Below Part H a') (hb : Ty.Below Part H b)
    (hb' : Ty.Below Part H b') (h : a.same a') (h' : b.same b') :
    (Ty.narrower R a b).same (Ty.narrower R a' b') := by
  have hpa := hP ha.1
  have hpb := hP hb.1
  have hab : R a b ↔ R a' b' :=
    ⟨hR ha ha' hb hb' h h', hR ha' ha hb' hb (same_symm hpa h) (same_symm hpb h')⟩
  have hba : R b a ↔ R b' a' :=
    ⟨hR hb hb' ha ha' h' h, hR hb' hb ha' ha (same_symm hpb h') (same_symm hpa h)⟩
  unfold narrower
  rw [isObjectLike_same h, isObjectLike_same h']
  by_cases hr : R a b
  · rwa [if_pos hr, if_pos (hab.mp hr)]
  rw [if_neg hr, if_neg (mt hab.mpr hr)]
  by_cases hr' : R b a
  · rwa [if_pos hr', if_pos (hba.mp hr')]
  rw [if_neg hr', if_neg (mt hba.mpr hr')]
  split
  · refine meet_of_sameMembers (by simpa using ⟨hpa, hpb⟩)
      (by simpa using ⟨hP ha'.1, hP hb'.1⟩) ⟨?_, ?_⟩
    · simp [h, h']
    · simp [same_symm hpa h, same_symm hpb h']
  · exact same_refl _

namespace Field

theorem Same.symm {f g : Field Ty} (hf : f.type.Proper) (h : f.Same g) : g.Same f :=
  ⟨h.name.symm, h.optional.symm, Ty.same_symm hf h.type⟩

theorem SameByName.symm (hp : ∀ f ∈ fs, f.type.Proper) (h : SameByName fs gs) :
    SameByName gs fs := by
  intro k
  have hk := h k
  generalize hf : find? fs k = o, find? gs k = o' at hk
  cases hk with
  | none => exact .none
  | some hs => exact .some (hs.symm (hp _ (mem_of_find? hf)))

/-- A property that several types share, made of equal properties. -/
theorem same_shared {found found' : List (Field Ty)} (hp : ∀ f ∈ found, f.type.Proper)
    (hp' : ∀ f ∈ found', f.type.Proper) (hthere : ∀ f ∈ found, ∃ f' ∈ found', f.Same f')
    (hhere : ∀ f' ∈ found', ∃ f ∈ found, f'.Same f) (k : String) :
    Same ⟨k, Ty.join (found.map (·.type)), found.any (·.optional)⟩
      ⟨k, Ty.join (found'.map (·.type)), found'.any (·.optional)⟩ := by
  have hinto : ∀ {fs gs : List (Field Ty)}, (∀ f ∈ fs, ∃ g ∈ gs, f.Same g) →
      (∀ t ∈ fs.map (·.type), ∃ u ∈ gs.map (·.type), t.same u) ∧
        (fs.any (·.optional) → gs.any (·.optional)) := by
    intro fs gs h
    refine ⟨List.forall_mem_map.mpr fun f hf => ?_, fun ho => ?_⟩
    · obtain ⟨g, hg, hs⟩ := h f hf
      exact ⟨g.type, List.mem_map_of_mem hg, hs.type⟩
    · obtain ⟨f, hf, ho⟩ := List.any_eq_true.mp ho
      obtain ⟨g, hg, hs⟩ := h f hf
      exact List.any_eq_true.mpr ⟨g, hg, hs.optional ▸ ho⟩
  refine ⟨rfl, ?_, ?_⟩
  · exact Bool.eq_iff_iff.mpr ⟨(hinto hthere).2, (hinto hhere).2⟩
  · exact Ty.join_of_sameMembers (List.forall_mem_map.mpr hp) (List.forall_mem_map.mpr hp')
      ⟨(hinto hthere).1, (hinto hhere).1⟩

end Field

namespace Member

/-- Lists of properties that correspond have properties of the same names in common. -/
theorem EachHas.of_sameByName {found : List (Field Ty)}
    (hback : ∀ r' ∈ rs', ∃ r ∈ rs, Option.Rel Field.SameByName r r') (h : EachHas k rs found) :
    ∃ found', EachHas k rs' found' := by
  have hall : ∀ r' ∈ rs', ∃ f fs, r' = some fs ∧ Field.find? fs k = some f := by
    intro r' hr'
    obtain ⟨r, hr, halike⟩ := hback r' hr'
    obtain ⟨f, _, fs, rfl, hf⟩ := forall₂_mem_left h hr
    cases halike with
    | some hfs =>
      have hk := hfs k
      rw [hf] at hk
      generalize hf' : Field.find? _ k = o at hk
      cases hk with
      | some => exact ⟨_, _, rfl, hf'⟩
  clear hback
  induction rs' with
  | nil => exact ⟨[], .nil⟩
  | cons r' rs' ih =>
    obtain ⟨⟨f, hf⟩, hrest⟩ := List.forall_mem_cons.mp hall
    obtain ⟨found', hfound'⟩ := ih hrest
    exact ⟨f :: found', .cons hf hfound'⟩

theorem EachHas.same {found found' : List (Field Ty)}
    (hinto : ∀ r ∈ rs, ∃ r' ∈ rs', Option.Rel Field.SameByName r r') (h : EachHas k rs found)
    (h' : EachHas k rs' found') : ∀ f ∈ found, ∃ f' ∈ found', f.Same f' := by
  intro f hf
  obtain ⟨_, hr, fs, rfl, hfind⟩ := forall₂_mem_right h hf
  obtain ⟨r', hr', halike⟩ := hinto _ hr
  obtain ⟨f', hf', fs', rfl, hfind'⟩ := forall₂_mem_left h' hr'
  cases halike with
  | some hfs =>
    have hk := hfs k
    rw [hfind, hfind'] at hk
    cases hk with
    | some hs => exact ⟨f', hf', hs⟩

theorem EachHas.proper {found : List (Field Ty)}
    (hp : ∀ r ∈ rs, ∀ fs, r = some fs → ∀ f ∈ fs, f.type.Proper) (h : EachHas k rs found) :
    ∀ f ∈ found, f.type.Proper := by
  intro f hf
  obtain ⟨_, hr, fs, rfl, hfind⟩ := forall₂_mem_right h hf
  exact hp _ hr fs rfl f (Field.mem_of_find? hfind)

/-- What the members of a union share does not depend on their order. -/
theorem sharedFields_sameByName (hne : rs ≠ []) (hne' : rs' ≠ [])
    (hp : ∀ r ∈ rs, ∀ fs, r = some fs → ∀ f ∈ fs, f.type.Proper)
    (hp' : ∀ r ∈ rs', ∀ fs, r = some fs → ∀ f ∈ fs, f.type.Proper)
    (hinto : ∀ r ∈ rs, ∃ r' ∈ rs', Option.Rel Field.SameByName r r')
    (hback : ∀ r' ∈ rs', ∃ r ∈ rs, Option.Rel Field.SameByName r' r) :
    Field.SameByName (sharedFields rs) (sharedFields rs') := by
  have hswap : ∀ {qs qs' : List (Option (List (Field Ty)))},
      (∀ r ∈ qs, ∀ fs, r = some fs → ∀ f ∈ fs, f.type.Proper) →
      (∀ r ∈ qs, ∃ r' ∈ qs', Option.Rel Field.SameByName r r') →
      ∀ r ∈ qs, ∃ r' ∈ qs', Option.Rel Field.SameByName r' r := by
    intro qs qs' hq h r hr
    obtain ⟨r', hr', halike⟩ := h r hr
    refine ⟨r', hr', ?_⟩
    cases halike with
    | none => exact .none
    | some hfs => exact .some (hfs.symm (hq _ hr _ rfl))
  have hnone : ∀ {k : String} {rs : List (Option (List (Field Ty)))},
      (¬∃ found, EachHas k rs found) → Field.find? (sharedFields rs) k = none := by
    intro k rs h
    exact Field.find?_eq_none.mpr fun hk => h (exists_found hk)
  intro k
  by_cases hfound : ∃ found, EachHas k rs found
  · obtain ⟨found, hfound⟩ := hfound
    obtain ⟨found', hfound'⟩ := hfound.of_sameByName (hswap hp' hback)
    rw [find?_sharedFields hne hfound, find?_sharedFields hne' hfound']
    exact .some (Field.same_shared (hfound.proper hp) (hfound'.proper hp')
      (hfound.same hinto hfound') (hfound'.same hback hfound) k)
  · rw [hnone hfound, hnone fun ⟨_, h⟩ => hfound (h.of_sameByName (hswap hp hinto))]
    exact .none

/-- Equal properties of one more member are merged with equal ones alike. -/
theorem mergedFields_sameByName {merged merged' : List (Field Ty)}
    (hP : ∀ {t : Ty}, Part t → t.Proper) (hR : Respects (Ty.Below Part H) R)
    (hm : ∀ g ∈ merged, Ty.Below Part H g.type) (hm' : ∀ g ∈ merged', Ty.Below Part H g.type)
    (hf : Field.Gathered Part H fs) (hf' : Field.Gathered Part H fs')
    (h : Field.SameByName merged merged') (h' : Field.SameByName fs fs') :
    Field.SameByName (mergedFields R merged fs) (mergedFields R merged' fs') := by
  intro k
  rw [find?_mergedFields hf.apart, find?_mergedFields hf'.apart]
  have hk := h k
  have hk' := h' k
  generalize hg : Field.find? merged k = o, hg' : Field.find? merged' k = o' at hk
  generalize he : Field.find? fs k = p, he' : Field.find? fs' k = p' at hk'
  cases hk with
  | none => exact hk'
  | @some g g' hgg =>
    cases hk' with
    | none => exact .some hgg
    | @some e e' hee =>
      refine .some ⟨hgg.name, ?_, ?_⟩
      · simp only [Field.mergeWith, hgg.optional, hee.optional]
      · exact Ty.narrower_same hP hR (hm g (Field.mem_of_find? hg))
          (hm' g' (Field.mem_of_find? hg')) (hf.type e (Field.mem_of_find? he))
          (hf'.type e' (Field.mem_of_find? he')) hgg.type hee.type

end Member

namespace Ty

/-- Members with equal properties, in the same order, are merged alike. -/
theorem offersBy_inter_sameByName (hP : ComparisonClosed R Part) (hR : Respects (Below Part H) R)
    {before before' ms ns : List Ty} (ht : Part (.inter (before ++ ms)))
    (ht' : Part (.inter (before' ++ ns))) (hH : (Ty.inter (before ++ ms)).height ≤ H)
    (hH' : (Ty.inter (before' ++ ns)).height ≤ H)
    (hbefore : Option.Rel Field.SameByName ((Ty.inter before).offersBy R)
      ((Ty.inter before').offersBy R))
    (h : List.Forall₂
      (fun m n => Option.Rel Field.SameByName (m.offersBy R) (n.offersBy R)) ms ns) :
    Option.Rel Field.SameByName ((Ty.inter (before ++ ms)).offersBy R)
      ((Ty.inter (before' ++ ns)).offersBy R) := by
  induction h generalizing before before' with
  | nil => simpa only [List.append_nil] using hbefore
  | @cons m n ms ns hmn _ ih =>
    rw [List.append_cons] at ht hH ht' hH' ⊢
    rw [List.append_cons before' n ns]
    refine ih ht ht' hH hH' ?_
    have hmerged : ∀ {us vs : List Ty} {v : Ty}, Part (.inter (us ++ [v] ++ vs)) →
        (Ty.inter (us ++ [v] ++ vs)).height ≤ H →
        (∀ g ∈ ((Ty.inter us).offersBy R).getD [], Below Part H g.type) ∧
          ∀ fs, v.offersBy R = some fs → Field.Gathered Part H fs := by
      intro us vs v hpart hle
      have hmem : v ∈ us ++ [v] ++ vs := by simp
      refine ⟨fun g hg => ?_, fun fs ho => ?_⟩
      · cases ho : (Ty.inter us).offersBy R with
        | none =>
          rw [ho] at hg
          cases hg
        | some acc =>
          rw [ho] at hg
          exact ((hP.prefix_gathered hpart (by simp) ho).mono hle).type g hg
      · exact (hP.offersBy (hP.child hpart hmem) ho).mono
          ((height_le_of_child (t := .inter (us ++ [v] ++ vs)) hmem).trans hle)
    obtain ⟨hacc, hown⟩ := hmerged ht hH
    obtain ⟨hacc', hown'⟩ := hmerged ht' hH'
    rw [offersBy_snoc, offersBy_snoc]
    generalize m.offersBy R = r, n.offersBy R = r' at hmn hown hown'
    cases hmn with
    | none => exact hbefore
    | some hfs =>
      refine .some (Member.mergedFields_sameByName (fun hu => (hP.within hu).proper) hR hacc hacc'
        (hown _ rfl) (hown' _ rfl) ?_ hfs)
      generalize (Ty.inter before).offersBy R = o, (Ty.inter before').offersBy R = o' at hbefore
      cases hbefore with
      | none => exact fun _ => .none
      | some halike => exact halike

/-- Equal types have equal properties. -/
theorem offersBy_sameByName (hP : ComparisonClosed R Part) (ho : Ordered Part)
    (hR : Respects (Below Part H) R) (ht : Part t) (ht' : Part t') (hH : t.height ≤ H)
    (hH' : t'.height ≤ H) (h : t.same t') :
    Option.Rel Field.SameByName (t.offersBy R) (t'.offersBy R) := by
  induction t using child_induction generalizing t' with
  | step t ih =>
    have hmember : ∀ {m m' : Ty}, m ∈ t.children → m' ∈ t'.children → m.same m' →
        Option.Rel Field.SameByName (m.offersBy R) (m'.offersBy R) := fun hm hm' hs =>
      ih _ hm (hP.child ht hm) (hP.child ht' hm') ((height_le_of_child hm).trans hH)
        ((height_le_of_child hm').trans hH') hs
    cases t with
    | object fs i n =>
      obtain ⟨gs, j, n', rfl, hfs, _⟩ := same_object_iff.mp h
      exact .some (Field.find?_same hfs)
    | union ms =>
      obtain ⟨ns, rfl, hl, hin⟩ := same_union_iff.mp h
      have hback := included_back hl (hP.within ht).here.shaped.2
        (fun m hm n _ => same_symm (hP.within (hP.child ht hm)).proper) hin
      have hne : ∀ {us : List Ty}, Part (.union us) → us.map (offersBy R) ≠ [] := by
        intro us hus
        have hlen := (hP.within hus).here.shaped.1
        simp only [ne_eq, List.map_eq_nil_iff]
        rintro rfl
        simp at hlen
      have hproper : ∀ {us : List Ty}, Part (.union us) → ∀ r ∈ us.map (offersBy R), ∀ fs,
          r = some fs → ∀ f ∈ fs, f.type.Proper := by
        rintro us hus r hr fs rfl f hf
        obtain ⟨u, hu, he⟩ := List.mem_map.mp hr
        exact (hP.within ((hP.offersBy (hP.child hus hu) he).type f hf).1).proper
      have hturn : ∀ {m n : Ty}, m ∈ ms → n ∈ ns → n.same m → m.same n := fun _ hn hs =>
        same_symm (hP.within (hP.child ht' hn)).proper hs
      simp only [offersBy, offersListBy_eq_map]
      refine .some
        (Member.sharedFields_sameByName (hne ht) (hne ht') (hproper ht) (hproper ht') ?_ ?_)
      · refine List.forall_mem_map.mpr fun m hm => ?_
        obtain ⟨m', hm', hs⟩ := hin m hm
        exact ⟨_, List.mem_map_of_mem hm', hmember hm hm' hs⟩
      · refine List.forall_mem_map.mpr fun m' hm' => ?_
        obtain ⟨m, hm, hs⟩ := hback m' hm'
        refine ⟨_, List.mem_map_of_mem hm, ?_⟩
        have halike := hmember hm hm' (hturn hm hm' hs)
        generalize hr : offersBy R m = r, offersBy R m' = r' at halike
        cases halike with
        | none => exact .none
        | some hfs =>
          exact .some (hfs.symm (hproper ht _ (List.mem_map_of_mem hm) _ hr))
    | inter ms =>
      obtain ⟨ns, rfl, _⟩ := same_inter_iff.mp h
      have hpairs := ho ht ht' h
      have hmembers : List.Forall₂
          (fun m n => Option.Rel Field.SameByName (Ty.offersBy R m) (Ty.offersBy R n)) ms ns := by
        refine List.forall₂_iff_zip.mpr ⟨hpairs.length_eq, fun {m n} hz => ?_⟩
        obtain ⟨hm, hn⟩ := List.of_mem_zip hz
        exact hmember hm hn ((List.forall₂_iff_zip.mp hpairs).2 hz)
      have hnil : Option.Rel Field.SameByName ((Ty.inter []).offersBy R)
          ((Ty.inter []).offersBy R) := .none
      have hwhole : Option.Rel Field.SameByName ((Ty.inter ([] ++ ms)).offersBy R)
          ((Ty.inter ([] ++ ns)).offersBy R) :=
        offersBy_inter_sameByName hP hR ht ht' hH hH' hnil hmembers
      exact hwhole
    | _ => cases t' <;> first | exact .none | simp [same] at h

/-- Equal types have equal indexes. -/
theorem soleIndex_same (hP : ComparisonClosed R Part) (ho : Ordered Part) (ht : Part t)
    (ht' : Part t') (h : t.same t') : Option.Rel Index.Same t.soleIndex t'.soleIndex := by
  induction t using child_induction generalizing t' with
  | step t ih =>
    cases t with
    | object fs i n =>
      obtain ⟨gs, j, n', rfl, _, hij⟩ := same_object_iff.mp h
      exact hij
    | inter ms =>
      obtain ⟨ns, rfl, -⟩ := same_inter_iff.mp h
      have hpairs : List.Forall₂
          (fun m n => Option.Rel Index.Same m.soleIndex n.soleIndex) ms ns := by
        have hpairs := ho ht ht' h
        refine List.forall₂_iff_zip.mpr ⟨hpairs.length_eq, fun {m n} hz => ?_⟩
        obtain ⟨hm, hn⟩ := List.of_mem_zip hz
        exact ih m hm (hP.child ht hm) (hP.child ht' hn) ((List.forall₂_iff_zip.mp hpairs).2 hz)
      have hindexes : List.Forall₂ Index.Same (soleIndexes ms) (soleIndexes ns) := by
        clear ih ht ht' h
        induction hpairs with
        | nil => exact .nil
        | @cons m n ms ns hmn _ ih =>
          simp only [soleIndexes]
          generalize m.soleIndex = i, n.soleIndex = j at hmn
          cases hmn with
          | none => exact ih
          | some hij => exact .cons hij ih
      simp only [soleIndex]
      generalize soleIndexes ms = is, soleIndexes ns = js at hindexes
      cases hindexes with
      | nil => exact .none
      | cons hij hrest =>
        cases hrest with
        | nil => exact .some hij
        | cons => exact .none
    | _ => cases t' <;> first | exact .none | simp [same] at h

/-- An object fits another one if they are equal, or by its properties and its index. -/
theorem fits_objects_iff (hs : Within .unnamed (.object fs i n))
    (ht : Within .unnamed (.object gs w m)) :
    Fits variance (.object fs i n) (.object gs w m) ↔
      (Ty.object fs i n).same (.object gs w m) ∨
        (∀ g ∈ gs, Reading.FieldFits (Fits variance) fs g) ∧
          Reading.IndexFits (Fits variance) fs i w := by
  rw [fits_iff hs ht]
  constructor
  · intro hf
    cases hf with
    | rule hf =>
      cases hf with
      | equal he => exact .inl he
      | objects hf hi => exact .inr ⟨hf, hi⟩
  · rintro (he | ⟨hf, hi⟩)
    · exact .rule (.equal he)
    · exact .rule (.objects hf hi)

/-- The properties of a combined object fit any index that it keeps, so that it fits an object by
the rule for objects even if it is equal to it. -/
theorem fits_object_iff (hs : Within .unnamed (.object fs i n))
    (ht : Within .unnamed (.object gs w m))
    (hkept : ∀ j j', i = some j → w = some j' → j.value.same j'.value →
      ∀ f ∈ fs, Fits variance f.type j'.value) :
    Fits variance (.object fs i n) (.object gs w m) ↔
      (∀ g ∈ gs, Reading.FieldFits (Fits variance) fs g) ∧
        Reading.IndexFits (Fits variance) fs i w := by
  have hequal : ∀ {u v : Ty}, u ∈ (Ty.object fs i n).children → v ∈ (Ty.object gs w m).children →
      u.same v → Fits variance u v := fun hu hv h =>
    (fits_iff (hs.child hu) (ht.child hv)).mpr (.rule (.equal h))
  rw [fits_objects_iff hs ht]
  refine ⟨?_, .inr⟩
  rintro (he | hrule)
  · obtain ⟨_, _, _, he, hfs, hindex⟩ := same_object_iff.mp he
    cases he
    refine ⟨fun g hg => ?_, fun j hj => ⟨fun f hf => ?_, fun o ho => ?_⟩⟩
    · obtain ⟨f, hf, hfg⟩ := forall₂_mem_right hfs hg
      have hfind := Field.find?_of_mem hs.here.shaped hf
      rw [hfg.name] at hfind
      simp only [Reading.FieldFits, hfind]
      exact ⟨fun ho => hfg.optional ▸ ho,
        hequal (field_mem_children hf) (field_mem_children hg) hfg.type⟩
    · obtain ⟨o, ho, hoj⟩ := exists_partner hindex hj
      exact hkept o j ho hj hoj.value f hf
    · subst hj ho
      cases hindex with
      | some hoj => exact hequal (value_mem_children rfl) (value_mem_children rfl) hoj.value
  · exact hrule

/-- Equal properties fit an equal property alike. -/
theorem fieldFits_of_sameByName {g g' : Field Ty} (h : Field.SameByName fs fs') (hg : g.Same g')
    (hr : ∀ f ∈ fs, ∀ f' ∈ fs', f.Same f' → R f.type g.type → R f'.type g'.type)
    (hf : Reading.FieldFits R fs g) : Reading.FieldFits R fs' g' := by
  have hk := h g.name
  unfold Reading.FieldFits at hf ⊢
  rw [← hg.name, ← hg.optional]
  generalize he : Field.find? fs g.name = o, he' : Field.find? fs' g.name = o' at hf hk
  cases hk with
  | none => exact hf
  | some hs =>
    exact ⟨hs.optional ▸ hf.1,
      hr _ (Field.mem_of_find? he) _ (Field.mem_of_find? he') hs hf.2⟩

theorem exists_like (hfs' : Field.Apart fs') (h : Field.SameByName fs fs') {f' : Field Ty}
    (hf' : f' ∈ fs') : ∃ f ∈ fs, f.Same f' := by
  have hk := h f'.name
  rw [Field.find?_of_mem hfs' hf'] at hk
  generalize hf : Field.find? fs f'.name = o at hk
  cases hk with
  | some hs => exact ⟨_, Field.mem_of_find? hf, hs⟩

theorem indexFits_of_sameByName {w' : Option (Index Ty)} (hfs' : Field.Apart fs')
    (h : Field.SameByName fs fs') (hi : Option.Rel Index.Same i i')
    (hw : Option.Rel Index.Same w w')
    (hr : ∀ j j', w = some j → w' = some j' → j.Same j' →
      (∀ f ∈ fs, ∀ f' ∈ fs', f.Same f' → R f.type j.value → R f'.type j'.value) ∧
        ∀ o o', i = some o → i' = some o' → o.Same o' → R o.value j.value → R o'.value j'.value)
    (hf : Reading.IndexFits R fs i w) : Reading.IndexFits R fs' i' w' := by
  intro j' hj'
  obtain ⟨j, hj, hjj⟩ := exists_partner hw hj'
  refine ⟨fun f' hf' => ?_, fun o' ho' => ?_⟩
  · obtain ⟨f, hfm, hs⟩ := exists_like hfs' h hf'
    exact (hr j j' hj hj' hjj).1 f hfm f' hf' hs ((hf j hj).1 f hfm)
  · obtain ⟨o, ho, hoo⟩ := exists_partner hi ho'
    exact (hr j j' hj hj' hjj).2 o o' ho ho' hoo ((hf j hj).2 o ho)

theorem keptIndex_sameByName (hP : ∀ {t : Ty}, Part t → t.Proper) (hR : Respects (Below Part H) R)
    (hfs : Field.Gathered Part H fs) (hfs' : Field.Gathered Part H fs')
    (h : Field.SameByName fs fs') (hi : Option.Rel Index.Same i i')
    (hv : ∀ j, i = some j → Below Part H j.value) (hv' : ∀ j, i' = some j → Below Part H j.value) :
    Option.Rel Index.Same (keptIndex R fs i) (keptIndex R fs' i') := by
  cases hi with
  | none => simp [keptIndex]
  | @some j j' hjj =>
    have hback := same_symm (hP (hv j rfl).1) hjj.value
    have hiff : (∀ f ∈ fs, R f.type j.value) ↔ ∀ f ∈ fs', R f.type j'.value := by
      constructor
      · intro hall f' hf'
        obtain ⟨f, hf, hs⟩ := exists_like hfs'.apart h hf'
        exact hR (hfs.type f hf) (hfs'.type f' hf') (hv j rfl) (hv' j' rfl) hs.type hjj.value
          (hall f hf)
      · intro hall f hf
        obtain ⟨f', hf', hs⟩ := exists_like hfs.apart
          (h.symm fun f hf => hP (hfs.type f hf).1) hf
        exact hR (hfs'.type f' hf') (hfs.type f hf) (hv' j' rfl) (hv j rfl) hs.type hback
          (hall f' hf')
    by_cases hall : ∀ f ∈ fs, R f.type j.value
    · rw [keptIndex_of_fits (by simpa using hall), keptIndex_of_fits (by simpa using hiff.mp hall)]
      exact .some hjj
    · rw [keptIndex_of_misfit (by simpa using hall),
        keptIndex_of_misfit (by simpa using mt hiff.mpr hall)]
      exact .none

/-- Equal types are combined alike. -/
theorem combinedBy_sameByName (hP : ComparisonClosed R Part) (ho : Ordered Part)
    (hR : Respects (Below Part t.height) R) (ht : Part t) (ht' : Part t') (h : t.same t')
    (hc : combinedBy R t = some (.object fs i none)) :
    ∃ fs' i', combinedBy R t' = some (.object fs' i' none) ∧ Field.SameByName fs fs' ∧
      Option.Rel Index.Same i i' := by
  have hle := height_le_of_same (same_symm (hP.within ht).proper h)
  have halike := offersBy_sameByName hP ho hR ht ht' le_rfl hle h
  obtain ⟨_, _, he, hoffers, hkept, -⟩ := hP.of_combinedBy ht hc
  cases he
  rw [hoffers] at halike
  generalize ho' : t'.offersBy R = r at halike
  cases halike with
  | @some _ fs' halike =>
    have hvalue : ∀ {u : Ty}, Part u → u.height ≤ t.height → ∀ j, u.soleIndex = some j →
        Below Part t.height j.value := fun hu hle j hj =>
      (hP.soleIndex hu hj).imp_right (·.trans_le hle)
    refine ⟨fs', keptIndex R fs' t'.soleIndex, by simp [combinedBy, ho'], halike, ?_⟩
    rw [hkept]
    exact keptIndex_sameByName (fun hu => (hP.within hu).proper) hR (hP.offersBy ht hoffers)
      ((hP.offersBy ht' ho').mono hle) halike (soleIndex_same hP ho ht ht' h) (hvalue ht le_rfl)
      (hvalue ht' hle)

end Ty

theorem faithful_part (hP : Ty.ComparisonClosed (Ty.Fits variance) Part) :
    (Reading.asIs variance).Faithful Part where
  any := hP.any
  child h hu := hP.child h hu
  look := id
  proper h := (hP.within h).proper
  look_same := id
  look_look _ := rfl

section
variable (hP : Ty.ComparisonClosed (Ty.Fits variance) Part)
  (hlower : ∀ {a a' b b' : Ty}, Part a → Part a' → Part b → Part b' → a.same a' → b.same b' →
    Ty.rank a b < Ty.rank s t → Ty.Fits variance a b → Ty.Fits variance a' b')
include hP hlower

omit hP in
theorem Ty.respects_below : Respects (Ty.Below Part s.height) (Ty.Fits variance) := by
  intro a a' b b' ha ha' hb hb' h h'
  exact hlower ha.1 ha'.1 hb.1 hb'.1 h h'
    (Ty.rank_lt_of_height (lt_max_of_lt_left ha.2) (lt_max_of_lt_left hb.2))

/-- Equal intersections have properties alike, or none alike. -/
theorem Ty.combinedBy_eq_none_same (ho : Ty.Ordered Part) (hs : Part s) (hs' : Part s')
    (hss : s.same s') (h : Ty.combinedBy (Ty.Fits variance) s = none) :
    Ty.combinedBy (Ty.Fits variance) s' = none := by
  have hle := Ty.height_le_of_same (Ty.same_symm (hP.within hs).proper hss)
  have halike := Ty.offersBy_sameByName hP ho (Ty.respects_below hlower) hs hs' le_rfl hle hss
  unfold Ty.combinedBy at h ⊢
  rw [Option.map_eq_none_iff] at h ⊢
  rw [h] at halike
  generalize Ty.offersBy (Ty.Fits variance) s' = r at halike
  cases halike
  rfl

variable (hs : Part s) (hs' : Part s') (ht : Part t) (ht' : Part t') (hss : s.same s')
  (htt : t.same t')
include hs hs' ht ht' hss htt

theorem Ty.fitsBy_same (hf : (Reading.asIs variance).FitsBy (Ty.Fits variance) s t) :
    (Reading.asIs variance).FitsBy (Ty.Fits variance) s' t' := by
  have hup := hf.upToSame (faithful_part hP) hs hs' ht ht' hss htt
  refine Ty.fitsBy_imp_of_rank hP hs' ht' (fun a b ha hb hlt hab => ?_) hup
  obtain ⟨-, -, c, d, hc, hd, hca, hdb, hcd⟩ := hab
  refine hlower hc ha hd hb hca hdb ?_ hcd
  rwa [Ty.rank_same (hP.within hc).proper (hP.within hd).proper hca hdb,
    Ty.rank_same (hP.within hs).proper (hP.within ht).proper hss htt]

/-- An intersection in the place of an equal one is combined into an object that fits as well. -/
theorem Ty.fits_combined_same (ho : Ty.Ordered Part) {ms : List Ty} {shape : Ty}
    (he : s = .inter ms) (hto : t.IsObject) (hc : Ty.combinedBy (Ty.Fits variance) s = some shape)
    (hr : Ty.Fits variance shape t) : ∃ shape', Ty.combinedBy (Ty.Fits variance) s' = some shape' ∧
      Ty.Fits variance shape' t' := by
  subst he
  obtain ⟨gs, w, n, rfl⟩ := hto
  obtain ⟨gs', w', n', rfl, hgs, hww⟩ := Ty.same_object_iff.mp htt
  obtain ⟨ms', rfl, -⟩ := Ty.same_inter_iff.mp hss
  have hle : (Ty.inter ms').height ≤ (Ty.inter ms).height :=
    Ty.height_le_of_same (Ty.same_symm (hP.within hs).proper hss)
  have hR := Ty.respects_below hlower
  obtain ⟨fs, i, rfl, -, -, hcombined⟩ := hP.of_combinedBy hs hc
  obtain ⟨fs', i', hc', halike, hii⟩ := Ty.combinedBy_sameByName hP ho hR hs hs' hss hc
  obtain ⟨_, _, he, -, -, hcombined'⟩ := hP.of_combinedBy hs' hc'
  cases he
  have hfield : ∀ f ∈ fs, Ty.Below Part (Ty.inter ms).height f.type := hcombined.gathered.type
  have hfield' : ∀ f ∈ fs', Ty.Below Part (Ty.inter ms).height f.type :=
    (hcombined'.gathered.mono hle).type
  have hindex : ∀ j, i = some j → Ty.Below Part (Ty.inter ms).height j.value := fun j hj =>
    (hcombined.index j hj).1
  have hindex' : ∀ j, i' = some j → Ty.Below Part (Ty.inter ms).height j.value := fun j hj =>
    (hcombined'.index j hj).1.imp_right (·.trans_le hle)
  -- what comes below the intersection on the left may take the place of what is equal to it
  have hturn : ∀ {u u' v v' : Ty}, Ty.Below Part (Ty.inter ms).height u →
      Ty.Below Part (Ty.inter ms).height u' → v ∈ (Ty.object gs w n).children →
      v' ∈ (Ty.object gs' w' n').children → u.same u' → v.same v' → Ty.Fits variance u v →
      Ty.Fits variance u' v' := by
    intro u u' v v' hu hu' hv hv' huu hvv
    exact hlower hu.1 hu'.1 (hP.child ht hv) (hP.child ht' hv') huu hvv
      (Ty.rank_lt_of_height (lt_max_of_lt_left hu.2)
        (lt_max_of_lt_right (Ty.height_lt_of_child hv rfl)))
  have hkept : ∀ {v : Ty} {fs : List (Field Ty)} {j : Index Ty},
      (∀ f ∈ fs, Ty.Below Part (Ty.inter ms).height f.type) →
      Ty.Below Part (Ty.inter ms).height j.value → (∀ f ∈ fs, Ty.Fits variance f.type j.value) →
      Part v → j.value.same v → ∀ f ∈ fs, Ty.Fits variance f.type v := by
    intro v fs j hfs hvalue hall hv hsame f hf
    exact hlower (hfs f hf).1 (hfs f hf).1 hvalue.1 hv (Ty.same_refl _) hsame
      (Ty.rank_lt_of_height (lt_max_of_lt_left (hfs f hf).2) (lt_max_of_lt_left hvalue.2))
      (hall f hf)
  have hshape := hP.within (hP.combined hs hc)
  have hshape' := hP.within (hP.combined hs' hc')
  refine ⟨_, hc', ?_⟩
  rw [Ty.fits_object_iff hshape (hP.within ht) fun j j' hj hj' hsame =>
    hkept hfield (hindex j hj) (hcombined.index j hj).2
      (hP.child ht (Ty.value_mem_children hj')) hsame] at hr
  rw [Ty.fits_object_iff hshape' (hP.within ht') fun j j' hj hj' hsame =>
    hkept hfield' (hindex' j hj) (hcombined'.index j hj).2
      (hP.child ht' (Ty.value_mem_children hj')) hsame]
  refine ⟨fun g' hg' => ?_, Ty.indexFits_of_sameByName hcombined'.gathered.apart halike hii hww
    (fun j j' hj hj' hjj => ⟨fun f hf f' hf' hff => ?_, fun o o' ho ho' hoo => ?_⟩) hr.2⟩
  · obtain ⟨g, hg, hgg⟩ := forall₂_mem_right hgs hg'
    exact Ty.fieldFits_of_sameByName halike hgg (fun f hf f' hf' hff => hturn (hfield f hf)
      (hfield' f' hf') (Ty.field_mem_children hg) (Ty.field_mem_children hg') hff.type hgg.type)
      (hr.1 g hg)
  · exact hturn (hfield f hf) (hfield' f' hf') (Ty.value_mem_children hj)
      (Ty.value_mem_children hj') hff.type hjj.value
  · exact hturn (hindex o ho) (hindex' o' ho') (Ty.value_mem_children hj)
      (Ty.value_mem_children hj') hoo.value hjj.value

end

/-- Equal types are interchangeable, if equal intersections list their members in the same
order. -/
theorem respects_fits (hP : Ty.ComparisonClosed (Ty.Fits variance) Part) (ho : Ty.Ordered Part) :
    Respects Part (Ty.Fits variance) := by
  intro s s' t t' hs hs' ht ht' hss htt hfits
  induction hk : Ty.rank s t using WellFoundedLT.induction generalizing s s' t t' with
  | _ r ih =>
    subst hk
    have hlower : ∀ {a a' b b' : Ty}, Part a → Part a' → Part b → Part b' → a.same a' →
        b.same b' → Ty.rank a b < Ty.rank s t → Ty.Fits variance a b → Ty.Fits variance a' b' :=
      fun ha ha' hb hb' haa hbb hlt hab => ih _ hlt ha ha' hb hb' haa hbb hab rfl
    have hst := Ty.same_symm (hP.within hs).proper hss
    have hts := Ty.same_symm (hP.within ht).proper htt
    have hobject : t'.IsObject → t.IsObject := by
      rintro ⟨gs, w, n, rfl⟩
      obtain ⟨gs', w', n', he, _⟩ := Ty.same_object_iff.mp hts
      exact ⟨gs', w', n', he⟩
    rw [Ty.fits_iff (hP.within hs') (hP.within ht')]
    cases (Ty.fits_iff (hP.within hs) (hP.within ht)).mp hfits with
    | rule hf => exact .rule (Ty.fitsBy_same hP hlower hs hs' ht ht' hss htt hf)
    | @toInter _ us hns hall =>
      obtain ⟨us', rfl, hlen, hin⟩ := Ty.same_inter_iff.mp htt
      refine .toInter ?_ fun u' hu' => ?_
      · rintro ms rfl
        obtain ⟨ms', rfl, _⟩ := Ty.same_union_iff.mp hst
        exact hns ms' rfl
      · obtain ⟨u, hu, huu⟩ := Ty.included_back hlen (hP.within ht).here.shaped.2
          (fun u hu _ _ => Ty.same_symm (hP.within (hP.child ht hu)).proper) hin u' hu'
        have hpart' : Part u' := hP.child ht' hu'
        exact hlower hs hs' (hP.child ht hu) hpart' hss
          (Ty.same_symm (hP.within hpart').proper huu) (Ty.rank_lt_right s rfl hu) (hall u hu)
    | @combined ms shape _ hto hc hr =>
      obtain ⟨ms', rfl, _⟩ := Ty.same_inter_iff.mp hss
      obtain ⟨shape', hc', hr'⟩ :=
        Ty.fits_combined_same hP hlower hs hs' ht ht' hss htt ho rfl hto hc hr
      obtain ⟨gs, w, n, rfl⟩ := hto
      obtain ⟨gs', w', n', rfl, _⟩ := Ty.same_object_iff.mp htt
      exact .combined ⟨gs', w', n', rfl⟩ hc' hr'
    | @member ms m _ hb hn hc hm hr =>
      obtain ⟨ms', rfl, _, hin⟩ := Ty.same_inter_iff.mp hss
      obtain ⟨m', hm', hmm⟩ := hin m hm
      refine .member (Ty.isBlend_of_same htt ▸ hb) ?_ (fun hto => ?_) hm' ?_
      · rintro rfl
        exact hn (Ty.same_prim_iff.mp hts)
      · exact Ty.combinedBy_eq_none_same hP hlower ho hs hs' hss (hc (hobject hto))
      · exact hlower (hP.child hs hm) (hP.child hs' hm') ht ht' hmm htt
          (Ty.rank_lt_left t rfl hm) hr

end ShapeCheck
