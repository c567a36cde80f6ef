import ShapeCheck.Proofs.Fit.Access
import ShapeCheck.Proofs.Fit.Widen

/-! A property can be read from a union exactly if it can be read from every member, and what is
read from a member fits what is read from the union. -/

namespace ShapeCheck
variable {σ : Type} {ctx : Surroundings σ} {t : Ty} {ms : List Ty} {f : Field Ty}
  {fs found : List (Field Ty)} {n : String} {d : Nat}

namespace Field

/-- The property of a union whose members have the given ones. -/
def shared (n : String) (found : List (Field Ty)) : Field Ty :=
  ⟨n, Ty.join (found.map (·.type)), found.any (·.optional)⟩

theorem interRefFree_readType (h : f.type.InterRefFree) : f.readType.InterRefFree := by
  unfold readType
  split
  · exact .join (by simp [h, Ty.InterRefFree.prim])
  · exact h

theorem interRefFree_shared (h : ∀ f ∈ found, f.type.InterRefFree) :
    (shared n found).type.InterRefFree :=
  .join (List.forall_mem_map.mpr h)

end Field

namespace Reading
variable {variance : Variance} {a : Ty}

theorem assignable_readType (ha : a.InterRefFree) (hf : f.type.InterRefFree)
    (h : (asIs variance).Assignable a f.type) : (asIs variance).Assignable a f.readType := by
  unfold Field.readType
  split
  · exact assignable_join (by simp [hf, Ty.InterRefFree.prim]) ha List.mem_cons_self h
  · exact h

/-- What is read from one member fits what is read from the union. Whatever may be undefined in
the member may be so in the union. -/
theorem readType_assignable (h : ∀ f ∈ found, f.type.InterRefFree) (hf : f ∈ found) :
    (asIs variance).Assignable f.readType (Field.shared n found).readType := by
  have hshared : (Field.shared n found).type.InterRefFree := Field.interRefFree_shared h
  have htype : (asIs variance).Assignable f.type (Field.shared n found).readType :=
    assignable_readType (h f hf) hshared
      (assignable_join (List.forall_mem_map.mpr h) (h f hf) (List.mem_map_of_mem hf)
        (assignable_refl f.type))
  by_cases ho : f.optional
  · have hany : (Field.shared n found).optional = true := List.any_eq_true.mpr ⟨f, hf, ho⟩
    have hparts : ∀ x ∈ [(Field.shared n found).type, Ty.undefined], x.InterRefFree := by
      simp [hshared, Ty.InterRefFree.prim]
    have hne : (Field.shared n found).readType ≠ Ty.never := by
      rw [Field.readType, if_pos hany, ne_eq, Ty.join_eq_never_iff fun x hx => (hparts x hx).proper]
      simp
    have hundefined :
        (asIs variance).Assignable Ty.undefined (Field.shared n found).readType := by
      rw [Field.readType, if_pos hany]
      exact assignable_join hparts (.prim _) (by simp) (assignable_refl _)
    rw [Field.readType, if_pos ho]
    exact join_assignable (by simp [h f hf, Ty.InterRefFree.prim])
      (Field.interRefFree_readType hshared) hne
      (by simp [htype, hundefined])
  · rwa [Field.readType, if_neg ho]

end Reading

namespace Member

theorem mem_sharedFields_iff {rs : List (Option (List (Field Ty)))} (hne : rs ≠ []) :
    n ∈ (sharedFields rs).map (·.name) ↔ ∀ r ∈ rs, ∃ fs, r = some fs ∧ n ∈ fs.map (·.name) := by
  constructor
  · intro h r hr
    obtain ⟨found, hfound⟩ := exists_found h
    obtain ⟨f, _, fs, rfl, hf⟩ := forall₂_mem_left hfound hr
    exact ⟨fs, rfl, Field.exists_find?_iff.mp ⟨f, hf⟩⟩
  · intro h
    obtain ⟨found, hfound⟩ : ∃ found, EachHas n rs found := by
      refine exists_forall₂ fun r hr => ?_
      obtain ⟨fs, rfl, hm⟩ := h r hr
      obtain ⟨f, hf⟩ := Field.exists_find?_iff.mpr hm
      exact ⟨f, fs, rfl, hf⟩
    exact Field.exists_find?_iff.mp ⟨_, find?_sharedFields hne hfound⟩

end Member

/-- The properties that a checker lists, whatever it has on record, which stays as it is. -/
def Surroundings.Lists (ctx : Surroundings σ) (depth : Nat) (t : Ty)
    (r : Option (List (Field Ty))) : Prop :=
  ∀ st, (Member.fieldsOf ctx (check ctx depth) depth t).run.run st = (.ok r, st)

/-- The type of a property that a checker reads, whatever it has on record, which stays as it
is. -/
def Surroundings.Reads (ctx : Surroundings σ) (depth : Nat) (n : String) (t u : Ty) : Prop :=
  ∀ st, (Member.propertyType ctx (check ctx depth) depth t n).run.run st = (.ok (some u), st)

theorem Surroundings.Level.lists (hc : ctx.Level) (ht : t.NoInterVariant) (hd : t.size ≤ d) :
    ctx.Lists d t t.offers := by
  intro st
  rw [Member.fieldsOf_noInterVariant hc ht hd]
  rfl

theorem Surroundings.Level.reads (hc : ctx.Level) (ht : t.NoInterVariant) (hd : t.size ≤ d)
    (ho : t.offers = some fs) (hf : Field.find? fs n = some f) : ctx.Reads d n t f.readType := by
  intro st
  rw [Member.propertyType_noInterVariant hc ht hd ho hf]
  rfl

theorem Ty.NoInterVariant.member {m : Ty} (h : (Ty.union ms).NoInterVariant) (hm : m ∈ ms) :
    m.NoInterVariant := by
  cases h with
  | single hb => cases hb
  | union h => exact h m hm

theorem Ty.size_le_of_member {m : Ty} (hm : m ∈ ms) : m.size ≤ (Ty.union ms).size :=
  (Ty.size_lt_of_mem_children (t := .union ms) hm).le

theorem Ty.offers_union (ms : List Ty) :
    (Ty.union ms).offers = some (Member.sharedFields (ms.map Ty.offers)) := by
  rw [offers, offersList_eq_map]

/-- What is read from the members of a union that all have a property, and from the union. -/
theorem Surroundings.Level.reads_union (hc : ctx.Level) (hu : (Ty.union ms).NoInterVariant)
    (hne : ms ≠ [])
    (hd : (Ty.union ms).size ≤ d) (h : Member.EachHas n (ms.map Ty.offers) found) :
    ctx.Reads d n (.union ms) (Field.shared n found).readType ∧
      List.Forall₂ (ctx.Reads d n) ms (found.map Field.readType) := by
  constructor
  · exact hc.reads hu hd (Ty.offers_union ms) (Member.find?_sharedFields (by simpa using hne) h)
  · have hms : ∀ m ∈ ms, m.NoInterVariant ∧ m.size ≤ d := fun m hm =>
      ⟨hu.member hm, (Ty.size_le_of_member hm).trans hd⟩
    rw [Member.EachHas, List.forall₂_map_left_iff] at h
    refine List.forall₂_map_right_iff.mpr (((List.forall₂_and_left ms found).mpr ⟨hms, h⟩).imp ?_)
    rintro m f ⟨⟨hm, hdm⟩, fs, ho, hf⟩
    exact hc.reads hm hdm ho hf

/-- The properties of a type without intersections and references are without them too. -/
theorem Ty.InterRefFree.offered (ht : t.InterRefFree) (ho : t.offers = some fs)
    (hf : Field.find? fs n = some f) : f.type.InterRefFree := by
  induction t using child_induction generalizing fs f with
  | step t ih =>
    cases t with
    | object gs i x =>
      cases ho
      exact ht.child (field_mem_children (Field.mem_of_find? hf))
    | union ms =>
      rw [offers_union] at ho
      cases ho
      have hne : ms ≠ [] := by
        rintro rfl
        cases hf
      obtain ⟨found, hfound⟩ := Member.exists_found (Field.exists_find?_iff.mp ⟨f, hf⟩)
      have hshared : Field.find? (Member.sharedFields (ms.map offers)) n =
          some (Field.shared n found) := Member.find?_sharedFields (by simpa using hne) hfound
      obtain rfl := Option.some.inj (hf.symm.trans hshared)
      refine Field.interRefFree_shared fun e he => ?_
      obtain ⟨r, hr, gs, rfl, hfind⟩ := forall₂_mem_right hfound he
      obtain ⟨m, hm, hoffers⟩ := List.mem_map.mp hr
      exact ih m hm (ht.child hm) hoffers hfind
    | _ => cases ho

theorem interRefFree_of_eachHas (hu : (Ty.union ms).InterRefFree)
    (h : Member.EachHas n (ms.map Ty.offers) found) :
    ∀ f ∈ found, f.type.InterRefFree := by
  intro f hf
  obtain ⟨r, hr, fs, rfl, hfind⟩ := forall₂_mem_right h hf
  obtain ⟨m, hm, ho⟩ := List.mem_map.mp hr
  have hm' : m.InterRefFree := hu.child hm
  exact hm'.offered ho hfind

/-- A checker says yes to each of the questions, whether it was asked others before or none. -/
def Surroundings.Confirms (ctx : Surroundings σ) (world : σ) (before : List Question) (depth : Nat)
    (qs : List Question) : Prop :=
  ∃ earlier, earlier.length = before.length ∧
    freshAnswers ctx depth world (before ++ qs) = .ok (earlier ++ qs.map fun _ => true) ∧
    ∀ q ∈ qs, freshAnswers ctx depth world [q] = .ok [true]

theorem Surroundings.Level.confirms (hc : ctx.Level) (world : σ) {before qs : List Question}
    (hb : ∀ q ∈ before, q.source.InterRefFree ∧ q.target.InterRefFree)
    (hq : ∀ q ∈ qs, q.source.InterRefFree ∧ q.target.InterRefFree)
    (h : ∀ q ∈ qs, (Reading.asIs ctx.variance).Assignable q.source q.target) :
    ∃ bound, ∀ depth, bound ≤ depth → ctx.Confirms world before depth qs := by
  classical
  obtain ⟨bound, earlier, hlen, hrun⟩ := hc.readsWithoutInter.freshAnswers_each world trivial hb hq
  refine ⟨bound, fun depth hd => ⟨earlier, hlen, ?_, fun q hm => ?_⟩⟩
  · rw [(hrun depth hd).1, List.map_congr_left fun q hm => decide_eq_true (h q hm)]
  · rw [(hrun depth hd).2 q hm, decide_eq_true (h q hm)]

theorem Surroundings.Level.confirms_reads (hc : ctx.Level) (world : σ) {before : List Question}
    (hb : ∀ q ∈ before, q.source.InterRefFree ∧ q.target.InterRefFree)
    (h : ∀ f ∈ found, f.type.InterRefFree)
    (n : String) :
    ∃ bound, ∀ depth, bound ≤ depth → ctx.Confirms world before depth
      ((found.map Field.readType).map (⟨·, (Field.shared n found).readType⟩)) := by
  have hwhole : (Field.shared n found).readType.InterRefFree :=
    Field.interRefFree_readType (Field.interRefFree_shared h)
  apply hc.confirms world hb
  · simpa using fun f hf => ⟨Field.interRefFree_readType (h f hf), hwhole⟩
  · simpa using fun f hf => Reading.readType_assignable h hf

/-- A property can be read from a union exactly if it can be read from every member, of whatever
types the properties are. If the union is without intersections and references, a checker says that
what is read from each member fits what is read from the union, whatever it was asked before about
such types. -/
theorem access_covers_variants (hc : ctx.Level) (world : σ) {before : List Question}
    (hb : ∀ q ∈ before, q.source.InterRefFree ∧ q.target.InterRefFree)
    (hu : (Ty.union ms).NoInterVariant) (hne : ms ≠ [])
    (n : String) :
    ∃ shared offered,
      (n ∈ shared.map (·.name) ↔ ∀ r ∈ offered, ∃ fs, r = some fs ∧ n ∈ fs.map (·.name)) ∧
      ∃ bound, ∀ depth, bound ≤ depth →
        ctx.Lists depth (.union ms) (some shared) ∧ List.Forall₂ (ctx.Lists depth) ms offered ∧
        (n ∈ shared.map (·.name) → ∃ whole parts, ctx.Reads depth n (.union ms) whole ∧
          List.Forall₂ (ctx.Reads depth n) ms parts ∧
          ((Ty.union ms).InterRefFree → ctx.Confirms world before depth
            (parts.map (⟨·, whole⟩)))) := by
  refine ⟨Member.sharedFields (ms.map Ty.offers), ms.map Ty.offers,
    Member.mem_sharedFields_iff (by simpa using hne), ?_⟩
  have hlists : ∀ depth, (Ty.union ms).size ≤ depth →
      ctx.Lists depth (.union ms) (some (Member.sharedFields (ms.map Ty.offers))) ∧
        List.Forall₂ (ctx.Lists depth) ms (ms.map Ty.offers) := by
    intro depth hd
    refine ⟨Ty.offers_union ms ▸ hc.lists hu hd, ?_⟩
    rw [List.forall₂_map_right_iff, List.forall₂_same]
    exact fun m hm => hc.lists (hu.member hm) ((Ty.size_le_of_member hm).trans hd)
  by_cases hn : n ∈ (Member.sharedFields (ms.map Ty.offers)).map (·.name)
  · obtain ⟨found, hfound⟩ := Member.exists_found hn
    obtain ⟨bound, hfit⟩ : ∃ bound, ∀ depth, bound ≤ depth → (Ty.union ms).InterRefFree →
        ctx.Confirms world before depth
          ((found.map Field.readType).map (⟨·, (Field.shared n found).readType⟩)) := by
      by_cases ho : (Ty.union ms).InterRefFree
      · obtain ⟨bound, hyes⟩ := hc.confirms_reads world hb (interRefFree_of_eachHas ho hfound) n
        exact ⟨bound, fun depth hd _ => hyes depth hd⟩
      · exact ⟨0, fun _ _ h => (ho h).elim⟩
    refine ⟨max (Ty.union ms).size bound, fun depth hd => ?_⟩
    obtain ⟨hwhole, hparts⟩ := hc.reads_union hu hne (d := depth) (by omega) hfound
    exact ⟨(hlists depth (by omega)).1, (hlists depth (by omega)).2, fun _ =>
      ⟨_, _, hwhole, hparts, hfit depth (by omega)⟩⟩
  · exact ⟨(Ty.union ms).size, fun depth hd =>
      ⟨(hlists depth hd).1, (hlists depth hd).2, fun h => (hn h).elim⟩⟩

/-- A union within a union, a property that may be missing from one of the objects, and a literal
whose primitive comes from another. -/
theorem access_covers_variants_nested :
    let one : Ty := .literal (.number (.int 1))
    let first : Ty := .object [⟨"id", one, true⟩] none none
    let second : Ty := .object [⟨"id", .prim .number, false⟩, ⟨"tag", Ty.any, false⟩] none none
    let third : Ty := .object [⟨"id", .union [Ty.never, .prim .string], false⟩] none none
    let ms : List Ty := [first, .union [second, third]]
    let before : List Question := [⟨second, first⟩]
    let ctx := Env.surroundings .bivariant true
    (Ty.union ms).InterRefFree ∧ (Ty.union ms).NoInterVariant ∧
      (Ty.union ms).offers.map (·.map (·.name)) = some ["id"] ∧
      ∃ shared offered,
        ("id" ∈ shared.map (·.name) ↔
          ∀ r ∈ offered, ∃ fs, r = some fs ∧ "id" ∈ fs.map (·.name)) ∧
        ∃ bound, ∀ depth, bound ≤ depth →
          ctx.Lists depth (.union ms) (some shared) ∧ List.Forall₂ (ctx.Lists depth) ms offered ∧
          ("id" ∈ shared.map (·.name) → ∃ whole parts, ctx.Reads depth "id" (.union ms) whole ∧
            List.Forall₂ (ctx.Reads depth "id") ms parts ∧
            ((Ty.union ms).InterRefFree →
              ctx.Confirms parity before depth (parts.map (⟨·, whole⟩)))) := by
  intro one first second third ms before ctx
  have hfree : ∀ v ∈ [first, second, .union ms], v.InterRefFree := by
    have hw : ∀ v ∈ [first, second, .union ms],
        Ty.holdsWithin Ty.WellShaped 5 v ∧ Ty.holdsWithin Ty.NotInterOrRef 5 v := by decide
    exact fun v hv => Ty.interRefFree_of_holdsWithin (hw v hv)
  have hu : (Ty.union ms).InterRefFree := hfree _ (by simp)
  have hb : ∀ q ∈ before, q.source.InterRefFree ∧ q.target.InterRefFree := by
    simp [before, hfree first (by simp), hfree second (by simp)]
  exact ⟨hu, hu.noInterVariant, rfl, access_covers_variants (Env.surroundings_level _ _) parity hb
    hu.noInterVariant (by simp [ms]) "id"⟩

end ShapeCheck
