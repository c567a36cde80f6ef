import ShapeCheck.Proofs.Fit.EqualTypes
import ShapeCheck.Proofs.Fit.InterLeaf

/-! What an intersection keeps of the types it was made of. The types that members give to a
property are merged in turn. Nothing is lost of them if each is wider than what was merged before,
or narrower than all of it, or clashes with it. -/

namespace ShapeCheck
variable {R : Ty → Ty → Prop} {Part : Ty → Prop} {variance : Variance} {k l m s t : Ty}
  {ms ts : List Ty} {fs gs : List (Field Ty)} {i w : Option (Index Ty)} {x : Option String}

namespace Ty

/-- Types of a property that nothing is lost of when they are merged in turn. -/
inductive Agreeing (R : Ty → Ty → Prop) : List Ty → Prop
  | one (t : Ty) : Agreeing R [t]
  | wider {ts : List Ty} {t : Ty} (h : Agreeing R ts) (ht : R (narrowest R ts) t) :
    Agreeing R (ts ++ [t])
  | narrower {ts : List Ty} {t : Ty} (hne : ts ≠ []) (hno : ¬R (narrowest R ts) t)
    (ht : R t (narrowest R ts)) (hall : ∀ u ∈ ts, R t u) : Agreeing R (ts ++ [t])
  | clash {ts : List Ty} {t : Ty} (hne : ts ≠ []) (hno : ¬R (narrowest R ts) t)
    (hno' : ¬R t (narrowest R ts))
    (ho : ((narrowest R ts).isObjectLike && t.isObjectLike) = false) : Agreeing R (ts ++ [t])
  | meet {ts : List Ty} {t : Ty} (hne : ts ≠ []) (hno : ¬R (narrowest R ts) t)
    (hno' : ¬R t (narrowest R ts))
    (ho : ((narrowest R ts).isObjectLike && t.isObjectLike) = true)
    (hall : ∀ u ∈ ts ++ [t], R (Ty.meet [narrowest R ts, t]) u) : Agreeing R (ts ++ [t])

theorem Agreeing.ne_nil (h : Agreeing R ts) : ts ≠ [] := by
  cases h <;> simp

/-- What the types are merged into fits all of them. -/
theorem Agreeing.fits (h : Agreeing R ts) (hrefl : ∀ t ∈ ts, R t t)
    (hnever : ∀ t ∈ ts, R never t) : ∀ t ∈ ts, R (narrowest R ts) t := by
  induction h with
  | one t => simpa [narrowest] using hrefl
  | @wider ts t h ht ih =>
    have hkeep : narrowest R (ts ++ [t]) = narrowest R ts := by
      rw [narrowest_snoc R h.ne_nil, Ty.narrower, if_pos ht]
    rw [hkeep]
    obtain ⟨hrefl, -⟩ := List.forall_mem_append.mp hrefl
    obtain ⟨hnever, -⟩ := List.forall_mem_append.mp hnever
    exact List.forall_mem_append.mpr ⟨ih hrefl hnever, List.forall_mem_singleton.mpr ht⟩
  | @narrower ts t hne hno ht hall =>
    have htake : narrowest R (ts ++ [t]) = t := by
      rw [narrowest_snoc R hne, Ty.narrower, if_neg hno, if_pos ht]
    rw [htake]
    exact List.forall_mem_append.mpr ⟨hall, List.forall_mem_singleton.mpr (hrefl t (by simp))⟩
  | @clash ts t hne hno hno' ho =>
    have hnone : narrowest R (ts ++ [t]) = never := by
      rw [narrowest_snoc R hne, Ty.narrower, if_neg hno, if_neg hno', ho]
      rfl
    rw [hnone]
    exact hnever
  | @meet ts t hne hno hno' ho hall =>
    have hboth : narrowest R (ts ++ [t]) = Ty.meet [narrowest R ts, t] := by
      rw [narrowest_snoc R hne, Ty.narrower, if_neg hno, if_neg hno', if_pos ho]
    rw [hboth]
    exact hall

/-- Equal types agree. -/
theorem agreeing_replicate {u : Ty} (h : R u u) (n : Nat) :
    Agreeing R (List.replicate (n + 1) u) ∧ narrowest R (List.replicate (n + 1) u) = u := by
  induction n with
  | zero => exact ⟨.one u, rfl⟩
  | succ n ih =>
    rw [List.replicate_succ']
    refine ⟨.wider ih.1 (by rwa [ih.2]), ?_⟩
    rw [narrowest_snoc R ih.1.ne_nil, ih.2, Ty.narrower, if_pos h]

/-- The types that members give to a property, in turn. -/
noncomputable def declared (R : Ty → Ty → Prop) (ms : List Ty) (k : String) : List Ty :=
  ms.filterMap fun m => ((m.offersBy R).bind (Field.find? · k)).map (·.type)

/-- The type that a property has in the intersection of the members. -/
noncomputable def mergedType (R : Ty → Ty → Prop) (ms : List Ty) (k : String) : Ty :=
  narrowest R (declared R ms k)

end Ty

/-- Properties of one name, merged in turn, have the types merged in turn, and are optional only if
all of them are. -/
theorem Field.foldl_mergeOption_cases (R : Ty → Ty → Prop) (os : List (Option (Field Ty))) :
    os.filterMap (·.map (·.type)) = [] ∧ os.foldl (mergeOption R) none = none ∨
      ∃ g, os.foldl (mergeOption R) none = some g ∧ os.filterMap (·.map (·.type)) ≠ [] ∧
        g.type = Ty.narrowest R (os.filterMap (·.map (·.type))) ∧
        ∀ f, some f ∈ os → g.optional = true → f.optional = true := by
  induction os using List.reverseRecOn with
  | nil => exact .inl ⟨rfl, rfl⟩
  | append_singleton os o ih =>
    rw [List.foldl_append, List.filterMap_append]
    cases o with
    | none => simpa [mergeOption_none_right] using ih
    | some f =>
      right
      rcases ih with ⟨hnil, hnone⟩ | ⟨g, hg, hne, htype, hoptional⟩
      · refine ⟨f, by simp [hnone, mergeOption], by simp, by simp [hnil, Ty.narrowest], ?_⟩
        intro e he
        rcases List.mem_append.mp he with he | he
        · have : e.type ∈ os.filterMap (·.map (·.type)) := List.mem_filterMap.mpr ⟨_, he, rfl⟩
          simp [hnil] at this
        · obtain rfl : e = f := by simpa using he
          exact id
      · refine ⟨g.mergeWith R f, by simp [hg, mergeOption], by simp, ?_, fun e he ho => ?_⟩
        · simp only [List.filterMap_cons, Option.map_some, List.filterMap_nil,
            Ty.narrowest_snoc R hne, ← htype]
          rfl
        · obtain ⟨hog, hof⟩ : g.optional = true ∧ f.optional = true := by
            simpa [mergeWith] using ho
          rcases List.mem_append.mp he with he | he
          · exact hoptional e he hog
          · obtain rfl : e = f := by simpa using he
            exact hof

namespace Ty

/-- A property of an intersection by what its members declare. -/
theorem ComparisonClosed.find?_merged (hP : ComparisonClosed R Part) (ht : Part (.inter ms))
    (ho : (Ty.inter ms).offersBy R = some fs) (k : String) :
    declared R ms k = [] ∧ Field.find? fs k = none ∨
      ∃ g, Field.find? fs k = some g ∧ declared R ms k ≠ [] ∧ g.type = mergedType R ms k ∧
        ∀ m ∈ ms, ∀ es f, m.offersBy R = some es → Field.find? es k = some f →
          g.optional = true → f.optional = true := by
  have hapart : ∀ r ∈ ms.map (Ty.offersBy R), ∀ es, r = some es → Field.Apart es := by
    rintro _ hr es rfl
    obtain ⟨m, hm, he⟩ := List.mem_map.mp hr
    exact (hP.offersBy (hP.child ht hm) he).apart
  have hfind := Member.find?_mergedMembers (R := R) (m := none) hapart k
  rw [Ty.offersBy, offersListBy_eq_map] at ho
  rw [ho, List.map_map] at hfind
  simp only [Option.bind_some, Option.bind_none] at hfind
  have hdeclared : declared R ms k =
      (ms.map ((·.bind (Field.find? · k)) ∘ Ty.offersBy R)).filterMap (·.map (·.type)) := by
    rw [List.filterMap_map]
    rfl
  rw [mergedType, hdeclared, hfind]
  rcases Field.foldl_mergeOption_cases R (ms.map ((·.bind (Field.find? · k)) ∘ Ty.offersBy R)) with
    hnone | ⟨g, hg, hne, htype, hoptional⟩
  · exact .inl hnone
  · refine .inr ⟨g, hg, hne, htype, fun m hm es f he hf => hoptional f ?_⟩
    exact List.mem_map.mpr ⟨m, hm, by simp [he, hf]⟩

theorem mem_declared {es : List (Field Ty)} {f : Field Ty} (hm : m ∈ ms)
    (he : m.offersBy R = some es) (hf : f ∈ es) (ha : Field.Apart es) :
    f.type ∈ declared R ms f.name :=
  List.mem_filterMap.mpr ⟨m, hm, by simp [he, Field.find?_of_mem ha hf]⟩

theorem ComparisonClosed.of_declared {k : String} (hP : ComparisonClosed R Part)
    (hms : Part (.inter ms)) (h : t ∈ declared R ms k) : Part t := by
  obtain ⟨m, hm, htype⟩ := List.mem_filterMap.mp h
  obtain ⟨f, hoffered, rfl⟩ := Option.map_eq_some_iff.mp htype
  obtain ⟨es, he, hf⟩ := Option.bind_eq_some_iff.mp hoffered
  exact ((hP.offersBy (hP.child hms hm) he).type f (Field.mem_of_find? hf)).1

/-- The properties of an object are there in all that comes down to it. -/
theorem InterLeaf.offers (hP : ComparisonClosed R Part) (hs : Part s)
    (h : InterLeaf s (.object gs w x)) :
    ∃ fs, s.offersBy R = some fs ∧ ∀ g ∈ gs, ∃ f, Field.find? fs g.name = some f ∧
      (f.optional = true → g.optional = true) := by
  generalize hl : Ty.object gs w x = l at h
  induction h with
  | self =>
    subst hl
    exact ⟨gs, rfl, fun g hg => ⟨g, Field.find?_of_mem (hP.within hs).here.shaped hg, id⟩⟩
  | @member ms m l hm h ih =>
    obtain ⟨es, he, hfound⟩ := ih (hP.child hs hm) hl
    obtain ⟨fs, ho⟩ : ∃ fs, (Ty.inter ms).offersBy R = some fs := by
      rw [← Option.ne_none_iff_exists', offersBy, offersListBy_eq_map, ne_eq,
        Member.mergedMembers_eq_none]
      rintro ⟨-, hnone⟩
      have := hnone _ (List.mem_map_of_mem hm)
      rw [he] at this
      cases this
    refine ⟨fs, ho, fun g hg => ?_⟩
    obtain ⟨f, hf, hfg⟩ := hfound g hg
    have hmem := mem_declared hm he (Field.mem_of_find? hf)
      (hP.offersBy (hP.child hs hm) he).apart
    rw [(Field.find?_eq_some hf).2] at hmem
    rcases hP.find?_merged hs ho g.name with ⟨hnil, -⟩ | ⟨d, hd, -, -, hoptional⟩
    · rw [hnil] at hmem
      cases hmem
    · exact ⟨d, hd, fun hopt => hfg (hoptional m hm es f he hf hopt)⟩

/-- What holds of all merged types holds of all properties. -/
theorem ComparisonClosed.forall_merged_iff (hP : ComparisonClosed R Part) (ht : Part (.inter ms))
    (ho : (Ty.inter ms).offersBy R = some fs) {p : Ty → Prop} :
    (∀ f ∈ fs, p f.type) ↔ ∀ k, declared R ms k ≠ [] → p (mergedType R ms k) := by
  constructor
  · intro hall k hne
    rcases hP.find?_merged ht ho k with ⟨hnil, -⟩ | ⟨g, hg, -, htype, -⟩
    · exact (hne hnil).elim
    · exact htype ▸ hall g (Field.mem_of_find? hg)
  · intro hall f hf
    have hfind := Field.find?_of_mem (hP.offersBy ht ho).apart hf
    rcases hP.find?_merged ht ho f.name with ⟨-, hnone⟩ | ⟨g, hg, hne, htype, -⟩
    · rw [hfind] at hnone
      cases hnone
    · obtain rfl := Option.some.inj (hfind.symm.trans hg)
      exact htype ▸ hall _ hne

/-- What the intersection of the members keeps of an object: each property, as far as the types
that the members give to it are merged into one that fits it, and the index, as far as all
properties fit it, and the only index that is left. -/
structure RetainsObject (variance : Variance) (ms : List Ty) (gs : List (Field Ty))
    (w : Option (Index Ty)) : Prop where
  property : ∀ g ∈ gs, Fits variance (mergedType (Fits variance) ms g.name) g.type
  index : ∀ i, w = some i → ∀ k, declared (Fits variance) ms k ≠ [] →
    Fits variance (mergedType (Fits variance) ms k) i.value
  only : ∀ i o, w = some i → (Ty.inter ms).soleIndex = some o →
    (∀ k, declared (Fits variance) ms k ≠ [] →
      Fits variance (mergedType (Fits variance) ms k) o.value) → Fits variance o.value i.value

theorem fits_refl (ht : Within .unnamed t) : Fits variance t t :=
  fits_of_immediate ht ht (StandsFor.immediate (.inl (same_refl t)))

/-- Objects without indexes compare property by property. -/
theorem fits_unindexed_iff {n : Option String} (hs : Within .unnamed (.object fs none n))
    (ht : Within .unnamed (.object gs none x)) :
    Fits variance (.object fs none n) (.object gs none x) ↔
      ∀ g ∈ gs, Reading.FieldFits (Fits variance) fs g := by
  rw [fits_object_iff hs ht (by simp)]
  exact and_iff_left fun j hj => by cases hj

/-- What the intersection of the members keeps of a single type. An object is kept too if the
members are combined into one that is equal to it. -/
def Retains (variance : Variance) (ms : List Ty) : Ty → Prop
  | .prim .never => False
  | .union us => ∃ u ∈ us, Fits variance (.inter ms) u
  | .object gs w x => RetainsObject variance ms gs w ∨
    ∃ shape, combinedBy (Fits variance) (.inter ms) = some shape ∧ shape.same (.object gs w x)
  | _ => True

/-- A member that is an object without an index is kept if the types that the members give to its
properties agree. -/
theorem retains_of_agreeing (hms : Within .unnamed (.inter ms)) (hm : .object gs none x ∈ ms)
    (h : ∀ g ∈ gs, Agreeing (Fits variance) (declared (Fits variance) ms g.name)) :
    Retains variance ms (.object gs none x) := by
  refine .inl ⟨fun g hg => ?_, by simp, by simp⟩
  have hwithin : ∀ t ∈ declared (Fits variance) ms g.name, Within .unnamed t := fun t ht =>
    closed_unnamed.of_declared hms ht
  have hapart : Field.Apart gs := (hms.child hm).here.shaped
  refine (h g hg).fits (fun t ht => fits_refl (hwithin t ht)) (fun t ht => ?_) g.type
    (mem_declared hm rfl hg hapart)
  exact fits_of_immediate (within_prim _) (hwithin t ht) (by simp [Rule.immediate, isNever])

theorem NotUnionObjectOrNever.retains (h : l.NotUnionObjectOrNever) : Retains variance ms l := by
  cases l with
  | prim k =>
    cases k with
    | never => exact (h.not_never rfl).elim
    | _ => trivial
  | union us => exact (h.not_union us rfl).elim
  | object gs w x => exact (h.not_object ⟨gs, w, x, rfl⟩).elim
  | _ => trivial

/-- What stands for one of the types that a source comes down to is fit by it. -/
theorem InterLeaf.fits (hs : Within .unnamed s) (hl : Within .unnamed l) (h : InterLeaf s k)
    (hkl : k.StandsFor l) (hp : l.NotUnionObjectOrNever) (hli : ∀ us, l ≠ .inter us) :
    Fits variance s l := by
  induction h with
  | self => exact fits_of_immediate hs hl hkl.immediate
  | member hm _ ih =>
    refine (fits_iff hs hl).mpr (.member ?_ hp.not_never (fun ho => (hp.not_object ho).elim) hm ?_)
    · exact isBlend_of_single ⟨hp.not_union, hli⟩
    · exact ih (hs.child hm) hkl

theorem fits_union_iff {us : List Ty} (hms : Within .unnamed (.inter ms))
    (hus : Within .unnamed (.union us)) :
    Fits variance (.inter ms) (.union us) ↔ ∃ u ∈ us, Fits variance (.inter ms) u := by
  rw [fits_iff hms hus]
  constructor
  · intro hf
    cases hf with
    | rule hf =>
      cases hf with
      | equal he => simp [same] at he
      | toUnion _ hm hr => exact ⟨_, hm, hr⟩
    | combined hto =>
      obtain ⟨_, _, _, ho⟩ := hto
      cases ho
    | member hb => cases hb
  · rintro ⟨u, hu, hr⟩
    exact .rule (.toUnion (by simp) hu hr)

theorem fits_inter_iff {us : List Ty} (hms : Within .unnamed (.inter ms))
    (hus : Within .unnamed (.inter us)) (hne : (Ty.inter ms).same (.inter us) = false) :
    Fits variance (.inter ms) (.inter us) ↔ ∀ u ∈ us, Fits variance (.inter ms) u := by
  rw [fits_iff hms hus]
  constructor
  · intro hf
    cases hf with
    | rule hf =>
      cases hf with
      | equal he =>
        rw [he] at hne
        cases hne
    | toInter _ hall => exact hall
    | combined hto =>
      obtain ⟨_, _, _, ho⟩ := hto
      cases ho
    | member hb => cases hb
  · exact fun hall => .toInter (by simp) hall

theorem not_fits_never (hms : Within .unnamed (.inter ms)) :
    ¬Fits variance (.inter ms) never := by
  rw [fits_iff hms (within_prim _)]
  intro hf
  cases hf with
  | rule hf =>
    cases hf with
    | equal he => simp [same] at he
  | combined hto =>
    obtain ⟨_, _, _, ho⟩ := hto
    cases ho
  | member _ hn => exact hn rfl

theorem isObject_of_same (h : k.same (.object gs w x)) : k.IsObject := by
  cases k with
  | object es j y => exact ⟨es, j, y, rfl⟩
  | _ => simp [same] at h

/-- The object that an intersection is combined into fits one that the intersection comes down to
if all of it is kept, or if it is equal to it. -/
theorem fits_object_iff_retains {es : List (Field Ty)} {j : Option (Index Ty)} {y : Option String}
    (hms : Within .unnamed (.inter ms)) (hl : Within .unnamed (.object gs w x))
    (hk : InterLeaf (.inter ms) (.object es j y))
    (hsame : (Ty.object es j y).same (.object gs w x)) :
    Fits variance (.inter ms) (.object gs w x) ↔ Retains variance ms (.object gs w x) := by
  have hP : ComparisonClosed (Fits variance) (Within .unnamed) := closed_unnamed
  obtain ⟨fs, ho, hfound⟩ := hk.offers hP hms
  obtain ⟨_, _, _, he, hes, -⟩ := same_object_iff.mp hsame
  cases he
  have hc : combinedBy (Fits variance) (.inter ms) =
      some (.object fs (keptIndex (Fits variance) fs (Ty.inter ms).soleIndex) none) := by
    simp [combinedBy, ho]
  have hshape : Fits variance (.inter ms) (.object gs w x) ↔
      Fits variance (.object fs (keptIndex (Fits variance) fs (Ty.inter ms).soleIndex) none)
        (.object gs w x) := by
    have hund : Inquiry.Undecided (.inter ms) (.object gs w x) :=
      ⟨by simp [same], by simp, by simp, by simp, by simp, by simp, by simp [Rule.isScalar]⟩
    have hobject : (Ty.object gs w x).IsObject := ⟨gs, w, x, rfl⟩
    rw [fits_iff hms hl, fitsStep_inter_iff hund rfl, hc]
    constructor
    · rintro (⟨_, _, he, hr⟩ | ⟨hnone, _⟩)
      · cases he
        exact hr
      · cases hnone hobject
    · exact fun hr => .inl ⟨_, hobject, rfl, hr⟩
  have hfield : ∀ g ∈ gs, (Reading.FieldFits (Fits variance) fs g ↔
      Fits variance (mergedType (Fits variance) ms g.name) g.type) := by
    intro g hg
    obtain ⟨e, he, heg⟩ := forall₂_mem_right hes hg
    obtain ⟨f, hf, hopt⟩ := hfound e he
    rw [heg.name] at hf
    rw [heg.optional] at hopt
    rcases hP.find?_merged hms ho g.name with ⟨-, hnone⟩ | ⟨d, hd, -, htype, -⟩
    · rw [hf] at hnone
      cases hnone
    · obtain rfl := Option.some.inj (hf.symm.trans hd)
      simp only [Reading.FieldFits, hf, htype]
      exact ⟨fun h => h.2, fun h => ⟨hopt, h⟩⟩
  have hmerged : ∀ {v : Ty}, (∀ f ∈ fs, Fits variance f.type v) ↔
      ∀ k, declared (Fits variance) ms k ≠ [] →
        Fits variance (mergedType (Fits variance) ms k) v :=
    hP.forall_merged_iff (p := (Fits variance · _)) hms ho
  have hrules : (∀ g ∈ gs, Reading.FieldFits (Fits variance) fs g) ∧ Reading.IndexFits
      (Fits variance) fs (keptIndex (Fits variance) fs (Ty.inter ms).soleIndex) w ↔
      RetainsObject variance ms gs w := by
    constructor
    · rintro ⟨hfits, hifits⟩
      refine ⟨fun g hg => (hfield g hg).mp (hfits g hg), fun i hi => hmerged.mp (hifits i hi).1,
        fun i o hi hsole hall => (hifits i hi).2 o ?_⟩
      rw [keptIndex_of_fits, hsole]
      rintro _ hj
      cases hsole.symm.trans hj
      exact hmerged.mpr hall
    · intro h
      refine ⟨fun g hg => (hfield g hg).mpr (h.property g hg), fun i hi =>
        ⟨hmerged.mpr (h.index i hi), fun o hkept => ?_⟩⟩
      obtain ⟨hsole, hall⟩ := keptIndex_eq_some hkept
      exact h.only i o hi hsole (hmerged.mp hall)
  rw [hshape, fits_objects_iff (hP.combined hms hc) hl, hrules, or_comm, Retains, hc]
  simp

/-- A single type is fit by an intersection that comes down to it if it is kept. -/
theorem fits_iff_retains (hms : Within .unnamed (.inter ms)) (hl : Within .unnamed l)
    (hli : ∀ us, l ≠ .inter us) (hk : InterLeaf (.inter ms) k) (hkl : k.StandsFor l) :
    Fits variance (.inter ms) l ↔ Retains variance ms l := by
  by_cases hp : l.NotUnionObjectOrNever
  · exact iff_of_true (hk.fits hms hl hkl hp hli) hp.retains
  cases l with
  | union us => exact fits_union_iff hms hl
  | object gs w x =>
    rcases hkl with hsame | ⟨v, _, he⟩
    · obtain ⟨es, j, y, rfl⟩ := isObject_of_same hsame
      exact fits_object_iff_retains hms hl hk hsame
    · cases he
  | prim p =>
    cases p with
    | never => exact iff_of_false (not_fits_never hms) id
    | _ => exact (hp ⟨by simp, by simp [IsObject], by simp⟩).elim
  | inter us => exact (hli us rfl).elim
  | _ => exact (hp ⟨by simp, by simp [IsObject], by simp⟩).elim

/-- A type is fit by an intersection that comes down to all of it if all of it is kept. -/
theorem fits_iff_retains_leaves (hms : Within .unnamed (.inter ms)) (ht : Within .unnamed t)
    (hne : (Ty.inter ms).same t = false) (hlt : ∀ u ∈ t.interParts, u.nest < (Ty.inter ms).nest)
    (hcover : ∀ l, InterLeaf t l → ∃ k, InterLeaf (.inter ms) k ∧ k.StandsFor l) :
    Fits variance (.inter ms) t ↔ ∀ l, InterLeaf t l → Retains variance ms l := by
  induction t using child_induction with
  | step t ih =>
    by_cases hti : ∃ us, t = .inter us
    · obtain ⟨us, rfl⟩ := hti
      have hmember : ∀ u ∈ us, (Fits variance (.inter ms) u ↔
          ∀ l, InterLeaf u l → Retains variance ms l) := by
        intro u hu
        have hdeeper : u.nest < (Ty.inter ms).nest := hlt u hu
        refine ih u hu (ht.child hu) ?_ (fun v hv => ?_) fun l hl => hcover l (.member hu hl)
        · by_contra hsame
          have := nest_le_of_same (a := .inter ms) (by simpa using hsame)
          omega
        · rcases mem_interParts hv with rfl | ⟨vs, rfl, hv⟩
          · exact hdeeper
          · exact (nest_lt_of_child hv rfl).trans hdeeper
      rw [fits_inter_iff hms ht hne]
      constructor
      · intro hall l hl
        cases hl with
        | self hno => exact (hno us rfl).elim
        | member hu hl => exact (hmember _ hu).mp (hall _ hu) l hl
      · exact fun hall u hu => (hmember u hu).mpr fun l hl => hall l (.member hu hl)
    · have hti : ∀ us, t ≠ .inter us := fun us he => hti ⟨us, he⟩
      obtain ⟨k, hk, hkt⟩ := hcover t (.self hti)
      rw [fits_iff_retains hms ht hti hk hkt]
      exact ⟨fun h l hl => hl.eq_self hti ▸ h, fun h => h t (.self hti)⟩

/-- One part that stands for all parts of a type fits it, and is no intersection unless equal. -/
theorem fits_of_standsFor (hm : Within .unnamed m) (ht : Within .unnamed t)
    (h : ∀ p ∈ t.interParts, m.StandsFor p) :
    Fits variance m t ∧ (m.same t = true ∨ ∀ ms, m ≠ .inter ms) := by
  by_cases hti : ∃ us, t = .inter us
  · obtain ⟨us, rfl⟩ := hti
    -- two members that differ cannot both be equal to the part
    obtain ⟨l, rfl⟩ : ∃ l, m = .literal l := by
      obtain ⟨hlen, hdiffer⟩ := ht.here.shaped
      obtain ⟨u, u', vs, rfl⟩ : ∃ u u' vs, us = u :: u' :: vs := by
        rcases us with _ | ⟨u, _ | ⟨u', vs⟩⟩
        · simp at hlen
        · simp at hlen
        · exact ⟨u, u', vs, rfl⟩
      rcases h u (by simp [interParts]) with hu | ⟨l, hl, _⟩
      · rcases h u' (by simp [interParts]) with hu' | ⟨l, hl, _⟩
        · have hsame := same_trans (same_symm hm.proper hu) hu'
          rw [(List.pairwise_cons.mp hdiffer).1 u' (by simp)] at hsame
          cases hsame
        · exact ⟨l, hl⟩
      · exact ⟨l, hl⟩
    refine ⟨(fits_iff hm ht).mpr (.toInter (by simp) fun u hu => ?_), .inr (by simp)⟩
    exact fits_of_immediate hm (ht.child hu) (h u hu).immediate
  · have hti : ∀ us, t ≠ .inter us := fun us he => hti ⟨us, he⟩
    have hmt := h t (by simp [interParts_eq_self hti])
    refine ⟨fits_of_immediate hm ht hmt.immediate, ?_⟩
    rcases hmt with hsame | ⟨l, rfl, _⟩
    · exact .inl hsame
    · exact .inr (by simp)

/-- An intersection fits a type that it was made of exactly if it keeps all that the type comes
down to. Nothing is asked of it where it comes down to a single part or is equal to the type. -/
theorem fits_meet_iff (hts : ∀ t ∈ ts, Within .unnamed t) (ht : t ∈ ts) :
    Fits variance (meet ts) t ↔ ∀ ms, meet ts = .inter ms → (Ty.inter ms).same t = false →
      ∀ l, InterLeaf t l → Retains variance ms l := by
  have hmeet : Within .unnamed (meet ts) := within_meet trivial hts
  have hequal : Rule.immediate (meet ts) t = some none → Fits variance (meet ts) t :=
    fits_of_immediate hmeet (hts t ht)
  have hparts : ∀ p ∈ t.interParts, p ∈ ts.flatMap interParts := fun p hp =>
    List.mem_flatMap.mpr ⟨t, ht, hp⟩
  rcases meet_eq ts with he | ⟨hnever, he | ⟨m, hone, he⟩ | he⟩
  · refine iff_of_true (hequal ?_) fun ms hms => ?_
    · simp [he, Rule.immediate, isNever]
    · cases he.symm.trans hms
  · refine iff_of_true (hequal ?_) fun ms hms => ?_
    · have hnot : t ≠ never := by
        rintro rfl
        exact hnever _ (hparts never (by simp [interParts])) rfl
      have hno : t.isNever = false := by simpa using mt Inquiry.isNever_iff.mp hnot
      simp [he, Rule.immediate, hno, isAny]
    · cases he.symm.trans hms
  · have hstands : ∀ p ∈ t.interParts, m.StandsFor p := by
      intro p hp
      obtain ⟨q, hq, hqp⟩ := exists_remaining (hparts p hp)
      rw [hone] at hq
      rwa [List.mem_singleton.mp hq] at hqp
    rw [he] at hmeet ⊢
    obtain ⟨hfits, hsame⟩ : Fits variance m t ∧ (m.same t = true ∨ ∀ ms, m ≠ .inter ms) :=
      fits_of_standsFor hmeet (hts t ht) hstands
    refine iff_of_true hfits ?_
    rintro ms rfl hdiffer
    rcases hsame with hsame | hnot
    · rw [hsame] at hdiffer
      cases hdiffer
    · exact (hnot ms rfl).elim
  · by_cases hsame : (meet ts).same t
    · refine iff_of_true (hequal (StandsFor.immediate (.inl hsame))) fun ms hms hdiffer => ?_
      rw [← hms, hsame] at hdiffer
      cases hdiffer
    rw [he] at hmeet hsame ⊢
    have hmem : ∀ {m : Ty}, m ∈ arrange (remaining ts) ↔ m ∈ remaining ts :=
      (Text.sortOn_perm spelling _).mem_iff
    have hlt : ∀ p ∈ t.interParts, p.nest < (Ty.inter (arrange (remaining ts))).nest := by
      intro p hp
      obtain ⟨m, hm, hmp⟩ := exists_remaining (hparts p hp)
      have hdeeper := nest_lt_of_child (t := .inter (arrange (remaining ts))) (hmem.mpr hm) rfl
      rcases hmp with hsame | ⟨v, rfl, rfl⟩
      · have hm : Within .unnamed m := hmeet.child (hmem.mpr hm)
        exact (nest_le_of_same (same_symm hm.proper hsame)).trans_lt hdeeper
      · rw [nest_of_not_blend rfl]
        exact Nat.zero_lt_of_lt hdeeper
    have hcover : ∀ l, InterLeaf t l →
        ∃ k, InterLeaf (.inter (arrange (remaining ts))) k ∧ k.StandsFor l := by
      intro l hl
      obtain ⟨m, hm, k, hk, hkl⟩ := hl.exists_remaining (fun u hu => (hts u hu).proper) ht
      exact ⟨k, .member (hmem.mpr hm) hk, hkl⟩
    rw [fits_iff_retains_leaves hmeet (hts t ht) (by simpa using hsame) hlt hcover]
    constructor
    · rintro h ms hms -
      cases hms
      exact h
    · exact fun h => h _ rfl (by simpa using hsame)

end Ty
end ShapeCheck
