import ShapeCheck.Proofs.Fit.Descent

/-! The properties that types without references offer. How deep the search for them may go makes
no difference once it is deep enough, and outside of intersections they can be read off the type. -/

namespace ShapeCheck
variable {σ : Type} {ctx : Surroundings σ} {φ : Features} {ask : Ask σ} {s t : Ty} {ms : List Ty}
  {d k : Nat} {st st' : CheckState σ}

theorem mapM_congr {α β : Type} {f g : α → CheckM σ β} {xs : List α}
    (h : ∀ x ∈ xs, f x = g x) : xs.mapM f = xs.mapM g := by
  rw [← List.mapM'_eq_mapM, ← List.mapM'_eq_mapM]
  induction xs with
  | nil => rfl
  | cons x xs ih =>
    obtain ⟨hx, hxs⟩ := List.forall_mem_cons.mp h
    simp only [List.mapM', hx, ih hxs]

theorem Surroundings.Level.resolve_self (hc : ctx.Level) (ht : ∀ n, t ≠ .ref n) :
    ctx.resolve t = pure t :=
  Surroundings.resolve_eq (hc.unwrap ht)

namespace Member

theorem mergeMembers_congr {f g : Ty → CheckM σ (Option (List (Field Ty)))}
    (h : ∀ m ∈ ms, f m = g m) (merged : Option (List (Field Ty))) :
    mergeMembers ctx ask f merged ms = mergeMembers ctx ask g merged ms := by
  induction ms generalizing merged with
  | nil => rfl
  | cons m ms ih =>
    obtain ⟨hm, hms⟩ := List.forall_mem_cons.mp h
    simp only [mergeMembers, hm, ih hms]

/-- The properties of a type are found at every depth that its size allows. -/
theorem fieldsOf_eq_of_size (hc : ctx.Level) (hφ : φ.Bare) (ht : Ty.Within φ t) (hd : t.size ≤ d)
    (hk : t.size ≤ k) : fieldsOf ctx ask d t = fieldsOf ctx ask k t := by
  induction t using Ty.child_induction generalizing d k with
  | step t ih =>
    have hpos := t.size_pos
    obtain ⟨d, rfl⟩ : ∃ n, d = n + 1 := ⟨d - 1, by omega⟩
    obtain ⟨k, rfl⟩ : ∃ n, k = n + 1 := ⟨k - 1, by omega⟩
    have hmember : ∀ u ∈ t.children, fieldsOf ctx ask d u = fieldsOf ctx ask k u := by
      intro u hu
      have := Ty.size_lt_of_mem_children hu
      exact ih u hu (ht.child hu) (by omega) (by omega)
    simp only [fieldsOf, hc.resolve hφ ht, pure_bind]
    cases t with
    | union ms =>
      have hms : ms.mapM (fieldsOf ctx ask d) = ms.mapM (fieldsOf ctx ask k) := mapM_congr hmember
      simp only [hms]
    | inter ms => exact mergeMembers_congr hmember none
    | _ => rfl

/-- The index of a type is found at every depth that its size allows. -/
theorem indexOf_eq_of_size (hc : ctx.Level) (hφ : φ.Bare) (ht : Ty.Within φ t) (hd : t.size ≤ d)
    (hk : t.size ≤ k) : indexOf ctx d t = indexOf ctx k t := by
  induction t using Ty.child_induction generalizing d k with
  | step t ih =>
    have hpos := t.size_pos
    obtain ⟨d, rfl⟩ : ∃ n, d = n + 1 := ⟨d - 1, by omega⟩
    obtain ⟨k, rfl⟩ : ∃ n, k = n + 1 := ⟨k - 1, by omega⟩
    simp only [indexOf, hc.resolve hφ ht, pure_bind]
    cases t with
    | inter ms =>
      have hms : ms.mapM (indexOf ctx d) = ms.mapM (indexOf ctx k) := by
        refine mapM_congr fun m hm => ?_
        have hlt : m.size < (Ty.inter ms).size := Ty.size_lt_of_mem_children hm
        exact ih m hm (ht.child hm) (by omega) (by omega)
      simp only [hms]
    | _ => rfl

theorem combinedObject_eq_of_size (hc : ctx.Level) (hφ : φ.Bare) (ht : Ty.Within φ t)
    (hd : t.size ≤ d) : combinedObject ctx ask d t = combinedObject ctx ask t.size t := by
  simp only [combinedObject, fieldsOf_eq_of_size hc hφ ht hd le_rfl,
    indexOf_eq_of_size hc hφ ht hd le_rfl]

theorem fieldsOf_union (hc : ctx.Level) (hφ : φ.Bare) (ht : Ty.Within φ (.union ms))
    (hd : (Ty.union ms).size ≤ d) : fieldsOf ctx ask d (.union ms) =
      (do return some (sharedFields (← ms.mapM (fieldsOf ctx ask d)))) := by
  rw [fieldsOf_eq_of_size hc hφ ht hd (Nat.le_succ_of_le hd)]
  simp only [fieldsOf, hc.resolve hφ ht, pure_bind]

end Member

/-- A question is worked on alike at every depth that the size of its source allows. -/
theorem Rule.structural_eq_of_size (hc : ctx.Level) (hφ : φ.Bare) (hs : Ty.Within φ s)
    (hd : s.size ≤ d) : structural ctx ask d s t = structural ctx ask s.size s t := by
  cases s with
  | inter ms =>
    have hcombined : Member.combinedObject ctx ask d (.inter ms) = _ :=
      Member.combinedObject_eq_of_size hc hφ hs hd
    cases t with
    | object gs w n => simp only [structural, plain, fromInter, hcombined]
    | _ => rfl
  | _ => rfl

theorem Rule.answer_eq_of_size (hc : ctx.Level) (hφ : φ.Bare) (hs : Ty.Within φ s)
    (ht : Ty.Within φ t) (hd : s.size ≤ d) :
    answer ctx ask d s t = answer ctx ask s.size s t := by
  simp only [answer, hc.resolve hφ hs, hc.resolve hφ ht, pure_bind,
    structural_eq_of_size hc hφ hs hd]

namespace Ty

/-- Types that have no properties at all. -/
inductive Featureless : Ty → Prop
  | simple {t : Ty} (ho : ∀ fs i n, t ≠ .object fs i n) (hu : ∀ ms, t ≠ .union ms)
    (hi : ∀ ms, t ≠ .inter ms) : Featureless t
  | inter {ms : List Ty} (h : ∀ m ∈ ms, Featureless m) : Featureless (.inter ms)

theorem featureless_inter_iff : (inter ms).Featureless ↔ ∀ m ∈ ms, m.Featureless := by
  constructor
  · intro h
    cases h with
    | simple _ _ hi => exact (hi ms rfl).elim
    | inter h => exact h
  · exact .inter

end Ty

/-- No member of an intersection had properties. -/
theorem Member.run_mergeMembers {f : Ty → CheckM σ (Option (List (Field Ty)))} {P : Ty → Prop}
    {merged r : Option (List (Field Ty))}
    (hf : ∀ m ∈ ms, ∀ {st st' : CheckState σ} {r : Option (List (Field Ty))},
      (f m).run.run st = (.ok r, st') → (r = none ↔ P m))
    (h : (mergeMembers ctx ask f merged ms).run.run st = (.ok r, st')) :
    r = none ↔ merged = none ∧ ∀ m ∈ ms, P m := by
  induction ms generalizing merged st with
  | nil =>
    cases h
    simp
  | cons m ms ih =>
    obtain ⟨hm, hms⟩ := List.forall_mem_cons.mp hf
    obtain ⟨a, st₁, ha, hrest⟩ := ok_of_run_bind h
    have hfirst := hm ha
    cases a with
    | none => simp [ih hms hrest, hfirst.mp rfl]
    | some fs =>
      obtain ⟨gs, st₂, _, hrest⟩ := ok_of_run_bind hrest
      have hno : ¬P m := fun hp => by cases hfirst.mpr hp
      simp [ih hms hrest, hno]

/-- Properties are found except where there are none. -/
theorem Member.run_fieldsOf (hc : ctx.Level) (hφ : φ.Bare) (ht : Ty.Within φ t)
    {r : Option (List (Field Ty))} (h : (fieldsOf ctx ask d t).run.run st = (.ok r, st')) :
    r = none ↔ t.Featureless := by
  induction d generalizing t r st st' with
  | zero => cases h
  | succ d ih =>
    simp only [fieldsOf, hc.resolve hφ ht, pure_bind] at h
    have hsome : ∀ fs, r = some fs → ¬t.Featureless → (r = none ↔ t.Featureless) := by
      rintro fs rfl hno
      simp [hno]
    cases t with
    | object fs i n =>
      cases h
      refine hsome fs rfl fun hno => ?_
      cases hno with
      | simple ho => exact ho fs i n rfl
    | union ms =>
      obtain ⟨rs, st₁, _, hrest⟩ := ok_of_run_bind h
      cases hrest
      refine hsome _ rfl fun hno => ?_
      cases hno with
      | simple _ hu => exact hu ms rfl
    | inter ms =>
      have hmembers : ∀ m ∈ ms, ∀ {st st' : CheckState σ} {r : Option (List (Field Ty))},
          (fieldsOf ctx ask d m).run.run st = (.ok r, st') → (r = none ↔ m.Featureless) :=
        fun m hm _ _ _ hrun => ih (ht.child hm) hrun
      simp [run_mergeMembers hmembers h, Ty.featureless_inter_iff]
    | _ =>
      cases h
      simp [Ty.Featureless.simple]

namespace Member
variable {rs : List (Option (List (Field Ty)))} {n : String}

theorem find?_filterMap_sharedField {first : List (Field Ty)} {others : List (List (Field Ty))}
    {f g : Field Ty} (hf : Field.find? first n = some f) (hg : sharedField f others = some g) :
    Field.find? (first.filterMap (sharedField · others)) n = some g := by
  induction first with
  | nil => cases hf
  | cons e es ih =>
    by_cases he : e.name = n
    · have hef : e = f := by simpa [Field.find?, he] using hf
      subst hef
      have hname : g.name = n := (Ledger.sharedField_eq_some hg).1.trans he
      simp [hg, Field.find?, hname]
    · have hes : Field.find? es n = some f := by simpa [Field.find?, he] using hf
      cases hshared : sharedField e others with
      | none => simpa [hshared] using ih hes
      | some g' =>
        have hname : g'.name ≠ n := by
          rw [(Ledger.sharedField_eq_some hshared).1]
          exact he
        simpa [hshared, Field.find?, hname] using ih hes

/-- Several types have a property of that name each, and these are the properties. -/
def EachHas (n : String) (rs : List (Option (List (Field Ty)))) (found : List (Field Ty)) : Prop :=
  List.Forall₂ (fun r f => ∃ fs, r = some fs ∧ Field.find? fs n = some f) rs found

/-- A property that all members of a union have. -/
theorem find?_sharedFields {found : List (Field Ty)} (hne : rs ≠ []) (h : EachHas n rs found) :
    Field.find? (sharedFields rs) n =
      some ⟨n, Ty.join (found.map (·.type)), found.any (·.optional)⟩ := by
  have hall : ∀ {rs : List (Option (List (Field Ty)))} {found : List (Field Ty)},
      EachHas n rs found → ∃ fss, rs.mapM id = some fss ∧
        fss.mapM (Field.find? · n) = some found := by
    intro rs found h
    induction h with
    | nil => exact ⟨[], rfl, rfl⟩
    | cons hr _ ih =>
      obtain ⟨fs, rfl, hfs⟩ := hr
      obtain ⟨fss, hrs, hfound⟩ := ih
      exact ⟨fs :: fss, by simp [hrs], by simp [hfs, hfound]⟩
  cases h with
  | nil => exact (hne rfl).elim
  | @cons r f rs found hr hrs =>
    obtain ⟨fs, rfl, hfs⟩ := hr
    obtain ⟨others, hothers, hfound⟩ := hall hrs
    have hname := (Field.find?_eq_some hfs).2
    have hshared : sharedField f others =
        some ⟨n, Ty.join ((f :: found).map (·.type)), (f :: found).any (·.optional)⟩ := by
      simp [sharedField, hname, hfound]
    have hmapM : (some fs :: rs).mapM id = some (fs :: others) := by simp [hothers]
    simp only [sharedFields, hmapM]
    exact find?_filterMap_sharedField hfs hshared

/-- Only what all members have is a property of a union. -/
theorem exists_found (h : n ∈ (sharedFields rs).map (·.name)) : ∃ found, EachHas n rs found := by
  obtain ⟨g, hg, rfl⟩ := List.mem_map.mp h
  unfold sharedFields at hg
  split at hg
  · cases hg
  · cases hg
  · rename_i first others hsome
    obtain ⟨f, hf, hshared⟩ := List.mem_filterMap.mp hg
    obtain ⟨gs, hgs, rfl⟩ := Option.map_eq_some_iff.mp hshared
    obtain ⟨e, he⟩ : ∃ e, Field.find? first f.name = some e :=
      Field.exists_find?_iff.mpr (List.mem_map_of_mem hf)
    rw [Ledger.eq_map_some_of_mapM hsome]
    refine ⟨e :: gs, .cons ⟨first, rfl, he⟩ (List.forall₂_map_left_iff.mpr ?_)⟩
    exact (Ledger.mapM_eq_some_iff.mp hgs).imp fun fs _ hfs => ⟨fs, rfl, hfs⟩

end Member

namespace Ty

mutual

/-- The properties of a type that is no intersection, read off it; none if it has none at all. -/
def offers : Ty → Option (List (Field Ty))
  | .object fs _ _ => some fs
  | .union ms => some (Member.sharedFields (offersList ms))
  | _ => none

def offersList : List Ty → List (Option (List (Field Ty)))
  | [] => []
  | m :: ms => offers m :: offersList ms

end

theorem offersList_eq_map (ms : List Ty) : offersList ms = ms.map offers := by
  induction ms with
  | nil => rfl
  | cons m ms ih => simp only [offersList, ih, List.map_cons]

end Ty

namespace Ty

/-- Intersections stand at most within properties, elements, parameters and results. -/
inductive NoInterVariant : Ty → Prop
  | single {t : Ty} (hb : t.isBlend = false) (hr : ∀ n, t ≠ .ref n) : NoInterVariant t
  | union {ms : List Ty} (h : ∀ m ∈ ms, NoInterVariant m) : NoInterVariant (.union ms)

theorem NoInterVariant.not_ref (h : t.NoInterVariant) : ∀ n, t ≠ .ref n := by
  cases h with
  | single _ hr => exact hr
  | union => simp

theorem InterRefFree.noInterVariant (h : t.InterRefFree) : t.NoInterVariant := by
  induction t using child_induction with
  | step t ih =>
    cases t with
    | union ms => exact .union fun m hm => ih m hm (h.child hm)
    | inter ms => exact (h.notInterOrRef.here.1 ms rfl).elim
    | ref n => exact (h.notInterOrRef.here.2 n rfl).elim
    | _ => exact .single rfl (by simp)

end Ty

/-- Outside of intersections nothing is asked. -/
theorem Member.fieldsOf_noInterVariant (hc : ctx.Level) (ht : t.NoInterVariant) (hd : t.size ≤ d) :
    fieldsOf ctx ask d t = pure t.offers := by
  induction ht generalizing d with
  | @single t hb hr =>
    have hpos := t.size_pos
    obtain ⟨d, rfl⟩ : ∃ n, d = n + 1 := ⟨d - 1, by omega⟩
    simp only [fieldsOf, hc.resolve_self hr, pure_bind]
    cases t with
    | union ms => cases hb
    | inter ms => cases hb
    | _ => rfl
  | @union ms _ ih =>
    have hpos := (Ty.union ms).size_pos
    obtain ⟨d, rfl⟩ : ∃ n, d = n + 1 := ⟨d - 1, by omega⟩
    have hmember : ∀ m ∈ ms, fieldsOf ctx ask d m = pure m.offers := by
      intro m hm
      have hlt : m.size < (Ty.union ms).size := Ty.size_lt_of_mem_children hm
      exact ih m hm (by omega)
    have hself : ctx.resolve (.union ms) = pure (.union ms) := hc.resolve_self (by simp)
    have hms : ms.mapM (fieldsOf ctx ask d) = pure (ms.map Ty.offers) :=
      (mapM_congr hmember).trans List.mapM_pure
    simp only [fieldsOf, hself, pure_bind, hms, Ty.offers, Ty.offersList_eq_map]

/-- The type of reading a property: an optional one may be undefined. -/
def Field.readType (f : Field Ty) : Ty :=
  if f.optional then Ty.join [f.type, Ty.undefined] else f.type

theorem Member.propertyType_noInterVariant {fs : List (Field Ty)} {f : Field Ty} {n : String}
    (hc : ctx.Level) (ht : t.NoInterVariant) (hd : t.size ≤ d) (ho : t.offers = some fs)
    (hf : Field.find? fs n = some f) : propertyType ctx ask d t n = pure (some f.readType) := by
  have hplain : t.isAny = false ∧ t.isNever = false := by
    cases t with
    | object fs i name => exact ⟨rfl, rfl⟩
    | union ms => exact ⟨rfl, rfl⟩
    | _ => cases ho
  simp only [propertyType, hc.resolve_self ht.not_ref, pure_bind, hplain.1, hplain.2,
    Bool.false_eq_true, if_false, fieldsOf_noInterVariant hc ht hd, ho, Option.bind_some, hf]
  rfl

end ShapeCheck
