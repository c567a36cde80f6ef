import ShapeCheck.Proofs.Fit.History
import ShapeCheck.Proofs.Fit.Offers
import ShapeCheck.Proofs.Fit.Steady

/-! Subsumption and member access agree: what fits an object with one required property has a
property of that name, and its type fits the wanted one. -/

namespace ShapeCheck
variable {σ α β : Type}

/-- A checker between two questions. -/
structure CheckState.AtRest (world : σ) (st : CheckState σ) : Prop where
  world : st.world = world
  lowest : st.memo.lowest = none
  pending : st.memo.pending = []

theorem CheckState.AtRest.above {world : σ} {st : CheckState σ} (h : st.AtRest world)
    (n : ℕ ×ₗ ℕ) : st.Above (fun _ => True) world n := by
  refine ⟨h.world, h.lowest, fun q hq => ?_, fun _ _ => trivial⟩
  rw [h.pending] at hq
  cases hq

theorem Settles.yields {act : Nat → CheckM σ α} {st : CheckState σ}
    {Ok : α → CheckState σ → Prop} (h : Settles (fun _ => False) act st Ok) :
    ∃ a st', Ok a st' ∧ Yields act st a := by
  obtain ⟨bound, r, st', hrun, hr⟩ := h
  cases r with
  | error e => exact hr.elim
  | ok a => exact ⟨a, st', hr, bound, fun d hd => ⟨st', hrun d hd⟩⟩

/-- What holds of the result from some depth on holds after every run that is deep enough. -/
theorem Settles.eventually {Err : Fault → Prop} {act : Nat → CheckM σ α} {st : CheckState σ}
    {Ok : α → CheckState σ → Prop} {Q : Nat → α → CheckState σ → Prop} (h : Settles Err act st Ok)
    (hQ : ∀ a st', Ok a st' → ∃ bound, ∀ d, bound ≤ d → Q d a st') :
    ∃ bound, ∀ d, bound ≤ d → ∀ a st', (act d).run.run st = (.ok a, st') → Q d a st' := by
  obtain ⟨bound, r, st', hrun, hr⟩ := h
  cases r with
  | error e =>
    refine ⟨bound, fun d hd a st'' hact => ?_⟩
    cases (hrun d hd).symm.trans hact
  | ok a =>
    obtain ⟨bound', hQ⟩ := hQ a st' hr
    refine ⟨max bound bound', fun d hd b st'' hact => ?_⟩
    cases (hrun d (by omega)).symm.trans hact
    exact hQ d (by omega)

theorem exists_forall₂ {P : α → β → Prop} {xs : List α} (h : ∀ x ∈ xs, ∃ y, P x y) :
    ∃ ys, List.Forall₂ P xs ys := by
  induction xs with
  | nil => exact ⟨[], .nil⟩
  | cons x xs ih =>
    obtain ⟨⟨y, hy⟩, hxs⟩ := List.forall_mem_cons.mp h
    obtain ⟨ys, hys⟩ := ih hxs
    exact ⟨y :: ys, .cons hy hys⟩

/-- The first type is the second or stands among its members, on any level of a union. -/
inductive Ty.Among (p : Ty) : Ty → Prop
  | same {t : Ty} (h : p.same t) : Among p t
  | member {m : Ty} {ms : List Ty} (hm : m ∈ ms) (h : Among p m) : Among p (.union ms)

theorem Ty.Among.of_union {us : List Ty} {u t : Ty} (h : (Ty.union us).Among t) (hu : u ∈ us) :
    u.Among t := by
  induction h with
  | same he =>
    obtain ⟨ts, rfl, _, hsub⟩ := same_union_iff.mp he
    obtain ⟨v, hv, huv⟩ := hsub u hu
    exact .member hv (.same huv)
  | member hm _ ih => exact .member hm ih

namespace Ty

def isUnion : Ty → Bool
  | .union _ => true
  | _ => false

/-- As unions and intersections are put together: neither has `any` or `never` as a member, and no
member of a union is one itself. -/
def Sifted : Ty → Prop
  | .union ms => ∀ m ∈ ms, m.isAny = false ∧ m.isNever = false ∧ m.isUnion = false
  | .inter ms => ∀ m ∈ ms, m.isAny = false ∧ m.isNever = false
  | _ => True

instance : DecidablePred Sifted
  | .union ms =>
    inferInstanceAs (Decidable
      (∀ m ∈ ms, m.isAny = false ∧ m.isNever = false ∧ m.isUnion = false))
  | .inter ms => inferInstanceAs (Decidable (∀ m ∈ ms, m.isAny = false ∧ m.isNever = false))
  | .prim _ | .literal _ | .array _ | .tuple _ | .object .. | .func .. | .ctor _ | .ref _ =>
    isTrue trivial

/-- The object with a single required property. -/
abbrev having (n : String) (t : Ty) (label : Option String) : Ty :=
  .object [⟨n, t, false⟩] none label

theorem within_having {φ : Features} {t : Ty} (n : String) (ht : Within φ t)
    (label : Option String) : Within φ (having n t label) :=
  within_object (by simp [Field.Apart]) (by simpa using ht) (by simp)

end Ty

namespace Steady
variable {ctx : Surroundings σ} {φ : Features} {world : σ} {st : CheckState σ} {p s t : Ty}
  {ms ts : List Ty} {n : String}

/-! What goes together with what. -/

theorem not_fails_same (h : Steady ctx φ) (hs : Ty.Within φ s) (ht : Ty.Within φ t)
    (he : s.same t) : ¬Fails ctx world s t := by
  intro hf
  rcases h.undecided_of_fails hs ht hf with hu | hu
  · exact hu.differ he
  · exact hu (fun _ _ => True) (.equal he)

theorem not_fails_any (h : Steady ctx φ) (hs : Ty.Within φ s) : ¬Fails ctx world s Ty.any := by
  intro hf
  rcases h.undecided_of_fails hs (Ty.within_prim _) hf with hu | hu
  · exact hu.toAny rfl
  · exact hu (fun _ _ => True) (.toAny s)

theorem not_fails_never (h : Steady ctx φ) (ht : Ty.Within φ t) : ¬Fails ctx world Ty.never t := by
  intro hf
  rcases h.undecided_of_fails (Ty.within_prim _) ht hf with hu | hu
  · exact hu.fromNever rfl
  · exact hu (fun _ _ => True) (.fromNever t)

theorem eq_never_of_goes (h : Steady ctx φ) (hs : Ty.Within φ s) (hg : Goes ctx world s Ty.never) :
    s = Ty.never := by
  rcases h.cases_of_gets hs (Ty.within_prim _) hg with himm | ⟨hu, _⟩
  · have hfits : (Reading.asIs ctx.variance).FitsBy (fun _ _ => True) s Ty.never :=
      Inquiry.immediate_fits himm
    exact hfits.eq_never hs.proper rfl
  · exact (hu.toNever rfl).elim

theorem not_fails_among (h : Steady ctx φ) (hp : Ty.Within φ p) (ht : Ty.Within φ t)
    (ha : p.Among t) : ¬Fails ctx world p t := by
  -- by the members of the source first, then by where it stands in the target
  induction p using Ty.child_induction generalizing t with
  | step p ih =>
    by_cases hu : ∃ us, p = .union us
    · obtain ⟨us, rfl⟩ := hu
      intro hf
      rcases h.fails_union hp ht hf with rfl | ⟨u, hu, hfu⟩
      · cases ha with
        | same he => simp [Ty.same] at he
      · exact ih u hu (hp.child hu) ht (ha.of_union hu) hfu
    · induction ha with
      | same he => exact h.not_fails_same hp ht he
      | member hm _ ihm =>
        intro hf
        exact ihm (ht.child hm) (h.fails_toUnion hp ht (fun us he => hu ⟨us, he⟩) hf _ hm)

theorem not_fails_part (h : Steady ctx φ) (hs : Ty.Within φ s) (ht : Ty.Within φ t)
    (hg : Goes ctx world s t) (hp : p ∈ s.unionParts) : ¬Fails ctx world p t := by
  rcases Ty.mem_unionParts hp with rfl | ⟨ms, rfl, hm⟩
  · exact hg.not_fails
  · rcases h.goes_union hs ht hg with he | rfl | hall
    · exact h.not_fails_among (hs.child hm) ht ((Ty.Among.same he).of_union hm)
    · exact h.not_fails_any (hs.child hm)
    · exact (hall p hm).not_fails

/-- What all of several types fit their union does not fail to fit. -/
theorem not_fails_join (h : Steady ctx φ) (ht : Ty.Within φ t)
    (hts : ∀ s ∈ ts, Ty.Within φ s ∧ Goes ctx world s t) : ¬Fails ctx world (Ty.join ts) t := by
  have hpart : ∀ p ∈ ts.flatMap Ty.unionParts, ¬Fails ctx world p t := by
    intro p hp
    obtain ⟨s, hs, hps⟩ := List.mem_flatMap.mp hp
    exact h.not_fails_part (hts s hs).1 ht (hts s hs).2 hps
  have hwithin : Ty.Within φ (Ty.join ts) := Ty.within_join fun s hs => (hts s hs).1
  rcases Ty.join_cases ts with hm | he | ⟨ms, he, hlen, hnodup, hsub⟩
  · exact hpart _ hm
  · rw [he]
    exact h.not_fails_never ht
  · rw [he] at hwithin ⊢
    intro hf
    rcases h.fails_union hwithin ht hf with rfl | ⟨m, hm, hfm⟩
    · -- only `never` fits `never`, and that does not stand in a union twice
      have hnever : ∀ m ∈ ms, m = Ty.never := by
        intro m hm
        obtain ⟨s, hs, hms⟩ := List.mem_flatMap.mp (hsub.subset hm)
        rw [h.eq_never_of_goes (hts s hs).1 (hts s hs).2] at hms
        exact List.mem_singleton.mp hms
      rw [List.eq_replicate_of_mem hnever, List.nodup_replicate] at hnodup
      omega
    · exact hpart m (hsub.subset hm) hfm

/-! What a checker at rest does. -/

theorem settles_check (h : Steady ctx φ) (hr : st.AtRest world) (hs : Ty.Within φ s)
    (ht : Ty.Within φ t) : Settles φ.Err (fun d => check ctx d s t) st fun v st' =>
      st'.AtRest world ∧ (v = none → Goes ctx world s t) ∧ (v ≠ none → Fails ctx world s t) := by
  obtain ⟨n, hn⟩ := exists_gt (Ty.rank s t)
  refine Settles.imp ((h.answered world n).judged (hr.above n) hs ht hn) ?_
  rintro v st' ⟨hi, hstep, hv⟩
  exact ⟨⟨hi.world, hi.lowest, hstep.trans hr.pending⟩, hv⟩

theorem settles_fieldsOf (h : Steady ctx φ) (hr : st.AtRest world) (hs : Ty.Within φ s)
    {r : Option (List (Field Ty))} (ho : Offers ctx world s r) :
    Settles (fun _ => False) (fun d => Member.fieldsOf ctx (check ctx d) d s) st fun r' st' =>
      r' = r ∧ st'.AtRest world := by
  have hi := hr.above (Ty.rank s s)
  refine Settles.imp (Yields.gives ho (h.gives_fieldsOf hi hs) hi hr.pending
    fun d => h.detaches_fieldsOf d d s) ?_
  rintro r' st' ⟨hi', hstep, rfl, _⟩
  exact ⟨rfl, hi'.world, hi'.lowest, hstep.trans hr.pending⟩

theorem settles_members (h : Steady ctx φ) (hr : st.AtRest world)
    {rs : List (Option (List (Field Ty)))} (hms : ∀ m ∈ ms, Ty.Within φ m)
    (ho : List.Forall₂ (Offers ctx world) ms rs) :
    Settles (fun _ => False) (fun d => ms.mapM (Member.fieldsOf ctx (check ctx d) d)) st
      fun rs' st' => rs' = rs ∧ st'.AtRest world := by
  simp only [← List.mapM'_eq_mapM]
  induction ho generalizing st with
  | nil => exact settles_pure ⟨rfl, hr⟩
  | cons hm _ ih =>
    obtain ⟨hmt, hms⟩ := List.forall_mem_cons.mp hms
    refine (h.settles_fieldsOf hr hmt hm).bind ?_
    rintro r st₁ ⟨rfl, hr₁⟩
    refine (ih hr₁ hms).bind ?_
    rintro rs st₂ ⟨rfl, hr₂⟩
    exact settles_pure ⟨rfl, hr₂⟩

theorem offers_union (h : Steady ctx φ) (hs : Ty.Within φ (.union ms))
    {rs : List (Option (List (Field Ty)))} (ho : List.Forall₂ (Offers ctx world) ms rs) :
    Offers ctx world (.union ms) (some (Member.sharedFields rs)) := by
  have hrest : (⟨Memo.empty, world⟩ : CheckState σ).AtRest world := ⟨rfl, rfl, rfl⟩
  have hall : Settles (fun _ => False) (fun d => Member.fieldsOf ctx (check ctx d) d (.union ms))
      ⟨Memo.empty, world⟩ fun r _ => r = some (Member.sharedFields rs) := by
    refine Settles.congr (fun d hd => Member.fieldsOf_union h.level h.bare hs hd) ?_
    refine (h.settles_members hrest (fun m hm => hs.child hm) ho).bind ?_
    rintro _ st' ⟨rfl, _⟩
    exact settles_pure rfl
  obtain ⟨_, _, rfl, hy⟩ := hall.yields
  exact hy

theorem offers_object (h : Steady ctx φ) {fs : List (Field Ty)} {i : Option (Index Ty)}
    {name : Option String} (hs : Ty.Within φ (.object fs i name)) :
    Offers ctx world (.object fs i name) (some fs) := by
  refine ⟨1, fun d hd => ⟨⟨Memo.empty, world⟩, ?_⟩⟩
  obtain ⟨d, rfl⟩ : ∃ n, d = n + 1 := ⟨d - 1, by omega⟩
  simp only [Member.fieldsOf, h.level.resolve h.bare hs, pure_bind]
  rfl

theorem featureless_iff (h : Steady ctx φ) (hs : Ty.Within φ s) {r : Option (List (Field Ty))}
    (ho : Offers ctx world s r) : r = none ↔ s.Featureless := by
  obtain ⟨bound, hrun⟩ := ho
  obtain ⟨st', hrun⟩ := hrun bound le_rfl
  exact Member.run_fieldsOf h.level h.bare hs hrun

/-! What fits an object with one required property. -/

theorem goes_same (h : Steady ctx φ) (hs : Ty.Within φ s) (ht : Ty.Within φ t) (he : s.same t) :
    Goes ctx world s t := by
  refine ⟨1, fun d hd => ⟨⟨Memo.empty, world⟩, ?_⟩⟩
  obtain ⟨d, rfl⟩ : ∃ n, d = n + 1 := ⟨d - 1, by omega⟩
  have himm : Rule.immediate s t = some none := by simp [Rule.immediate, he]
  simp only [check, Rule.answer, h.level.resolve h.bare hs, h.level.resolve h.bare ht, pure_bind,
    himm]
  rfl

theorem access_object (h : Steady ctx φ) {fs : List (Field Ty)} {i : Option (Index Ty)}
    {name label : Option String} (hs : Ty.Within φ (.object fs i name)) (ht : Ty.Within φ t)
    (hg : Goes ctx world (.object fs i name) (Ty.having n t label)) :
    ∃ f, Field.find? fs n = some f ∧ f.optional = false ∧ Ty.Within φ f.type ∧
      Goes ctx world f.type t := by
  have hfits := h.goes_plain hs (Ty.within_having n ht label) rfl rfl hg
  cases hfits with
  | equal he =>
    obtain ⟨gs, _, _, heq, hall, _⟩ := Ty.same_object_iff.mp he
    cases heq
    cases hall with
    | @cons f _ _ _ hf hnil =>
      cases hnil
      have htype : Ty.Within φ f.type := hs.field f List.mem_cons_self
      exact ⟨f, by simp [Field.find?, hf.name], hf.optional, htype,
        h.goes_same htype ht hf.type⟩
  | objects hf _ =>
    have hfield := hf _ (List.mem_singleton_self _)
    simp only [Reading.FieldFits] at hfield
    cases hfind : Field.find? fs n with
    | none => simp [hfind] at hfield
    | some f =>
      simp only [hfind] at hfield
      refine ⟨f, rfl, by simpa using hfield.1, hs.field f (Field.mem_of_find? hfind), hfield.2⟩

/-- A property that all members of a union have. -/
theorem access_union (h : Steady ctx φ) (hs : Ty.Within φ (.union ms)) (ht : Ty.Within φ t)
    (hall : ∀ m ∈ ms, ∃ fs f, Offers ctx world m (some fs) ∧ Field.find? fs n = some f ∧
      f.optional = false ∧ Ty.Within φ f.type ∧ Goes ctx world f.type t) :
    ∃ fs f, Offers ctx world (.union ms) (some fs) ∧ Field.find? fs n = some f ∧
      f.optional = false ∧ Ty.Within φ f.type ∧ ¬Fails ctx world f.type t ∧
      ((Ty.union ms).isUnion = false → Goes ctx world f.type t) := by
  have hpairs : ∀ m ∈ ms, ∃ y : List (Field Ty) × Field Ty, Offers ctx world m (some y.1) ∧
      Field.find? y.1 n = some y.2 ∧ y.2.optional = false ∧ Ty.Within φ y.2.type ∧
      Goes ctx world y.2.type t := by
    intro m hm
    obtain ⟨fs, f, hf⟩ := hall m hm
    exact ⟨(fs, f), hf⟩
  obtain ⟨ys, hys⟩ := exists_forall₂ hpairs
  have hy : ∀ y ∈ ys, Field.find? y.1 n = some y.2 ∧ y.2.optional = false ∧
      Ty.Within φ y.2.type ∧ Goes ctx world y.2.type t := by
    intro y hy
    obtain ⟨m, _, _, hrest⟩ := forall₂_mem_right hys hy
    exact hrest
  have hne : (ys.map fun y => some y.1) ≠ [] := by
    have hlen := hs.here.shaped.1
    rw [hys.length_eq] at hlen
    intro he
    simp [List.map_eq_nil_iff.mp he] at hlen
  have hoffers : List.Forall₂ (Offers ctx world) ms (ys.map fun y => some y.1) :=
    List.forall₂_map_right_iff.mpr (hys.imp fun _ _ h => h.1)
  have hsame : List.Forall₂ (fun r f => ∃ fs, r = some fs ∧ Field.find? fs n = some f)
      (ys.map fun y => some y.1) (ys.map (·.2)) := by
    rw [List.forall₂_map_left_iff, List.forall₂_map_right_iff, List.forall₂_same]
    exact fun y hm => ⟨y.1, rfl, (hy y hm).1⟩
  have htypes : ∀ u ∈ (ys.map (·.2)).map (·.type), Ty.Within φ u ∧ Goes ctx world u t := by
    intro u hu
    rw [List.map_map] at hu
    obtain ⟨y, hm, rfl⟩ := List.mem_map.mp hu
    exact (hy y hm).2.2
  refine ⟨_, _, h.offers_union hs hoffers, Member.find?_sharedFields hne hsame, ?_,
    Ty.within_join fun u hu => (htypes u hu).1, h.not_fails_join ht htypes, fun he => by cases he⟩
  simpa using fun y hm => (hy y hm).2.1

/-- What fits the object has the property. Its type does not fail to fit, and if it was not
collected from the members of a union it fits. -/
theorem access (h : Steady ctx φ) {label : Option String} (hs : Ty.Within φ s) (ht : Ty.Within φ t)
    (hsift : Ty.Everywhere Ty.Sifted s) (hany : s.isAny = false) (hnever : s.isNever = false)
    (hg : Goes ctx world s (Ty.having n t label)) :
    ∃ fs f, Offers ctx world s (some fs) ∧ Field.find? fs n = some f ∧ f.optional = false ∧
      Ty.Within φ f.type ∧ ¬Fails ctx world f.type t ∧
      (s.isUnion = false → Goes ctx world f.type t) := by
  have hwanted := Ty.within_having n ht label
  induction s using Ty.child_induction with
  | step s ih =>
    cases s with
    | union ms =>
      refine h.access_union hs ht fun m hm => ?_
      have hgoes : Goes ctx world m (Ty.having n t label) := by
        rcases h.goes_union hs hwanted hg with he | he | hmembers
        · simp [Ty.same] at he
        · cases he
        · exact hmembers m hm
      obtain ⟨hma, hmn, hmu⟩ := hsift.here m hm
      obtain ⟨fs, f, ho, hf, hreq, hwithin, _, hgf⟩ :=
        ih m hm (hs.child hm) (hsift.child hm) hma hmn hgoes
      exact ⟨fs, f, ho, hf, hreq, hwithin, hgf hmu⟩
    | inter ms =>
      rcases h.goes_inter hs hwanted hg with ⟨fs, i, ho, hshape, hgo⟩ | ⟨hnone, m, hm, hgm⟩
      · obtain ⟨f, hf, hreq, hwithin, hgf⟩ := h.access_object hshape ht hgo
        exact ⟨fs, f, ho, hf, hreq, hwithin, hgf.not_fails, fun _ => hgf⟩
      · -- a member that fits has properties, and so has the intersection
        obtain ⟨hma, hmn⟩ := hsift.here m hm
        obtain ⟨gs, _, ho, _⟩ := ih m hm (hs.child hm) (hsift.child hm) hma hmn hgm
        have hless := Ty.featureless_inter_iff.mp ((h.featureless_iff hs hnone).mp rfl) m hm
        cases (h.featureless_iff (hs.child hm) ho).mpr hless
    | object fs i name =>
      obtain ⟨f, hf, hreq, hwithin, hgf⟩ := h.access_object hs ht hg
      exact ⟨fs, f, h.offers_object hs, hf, hreq, hwithin, hgf.not_fails, fun _ => hgf⟩
    | prim k =>
      cases h.goes_plain hs hwanted rfl rfl hg with
      | equal he => simp [Ty.same] at he
      | fromNever => cases hnever
      | fromAny => cases hany
    | _ =>
      cases h.goes_plain hs hwanted rfl rfl hg with
      | equal he => simp [Ty.same] at he

theorem settles_propertyType (h : Steady ctx φ) (hr : st.AtRest world) (hs : Ty.Within φ s)
    (hany : s.isAny = false) (hnever : s.isNever = false) {fs : List (Field Ty)} {f : Field Ty}
    (ho : Offers ctx world s (some fs)) (hf : Field.find? fs n = some f)
    (hreq : f.optional = false) :
    Settles (fun _ => False) (fun d => Member.propertyType ctx (check ctx d) d s n) st
      fun r st' => r = some f.type ∧ st'.AtRest world := by
  simp only [Member.propertyType, h.level.resolve h.bare hs, pure_bind, hany, hnever,
    Bool.false_eq_true, if_false]
  refine (h.settles_fieldsOf hr hs ho).bind ?_
  rintro _ st' ⟨rfl, hr'⟩
  simp only [Option.bind_some, hf, hreq, Bool.false_eq_true, if_false]
  exact settles_pure ⟨rfl, hr'⟩

theorem settles_answers (h : Steady ctx φ) (hr : st.AtRest world) {qs : List Question}
    (hq : ∀ q ∈ qs, Ty.Within φ q.source ∧ Ty.Within φ q.target) :
    Settles φ.Err (fun d => answers ctx d qs) st fun _ st' => st'.AtRest world := by
  induction qs generalizing st with
  | nil => exact settles_pure hr
  | cons q qs ih =>
    obtain ⟨⟨hs, ht⟩, hqs⟩ := List.forall_mem_cons.mp hq
    refine (h.settles_check hr hs ht).bind fun v st₁ hv => ?_
    exact (ih hv.1 hqs).bind fun _ _ hr₂ => settles_pure hr₂

/-- A yes, then the property, then a yes for what was read. -/
theorem settles_access (h : Steady ctx φ) (hr : st.AtRest world) {label : Option String}
    (hs : Ty.Within φ s) (ht : Ty.Within φ t) (hsift : Ty.Everywhere Ty.Sifted s)
    (hany : s.isAny = false) (hnever : s.isNever = false) :
    Settles φ.Err (fun d => check ctx d s (Ty.having n t label)) st fun v st₁ => v = none → ∃ r,
      Settles (fun _ => False) (fun d => Member.propertyType ctx (check ctx d) d s n) st₁
        fun r' st₂ => r' = some r ∧
          Settles φ.Err (fun d => check ctx d r t) st₂ fun v' _ => v' = none := by
  refine (h.settles_check hr hs (Ty.within_having n ht label)).imp ?_
  rintro v st₁ ⟨hr₁, hgoes, _⟩ hv
  obtain ⟨fs, f, ho, hf, hreq, hwithin, hkept, _⟩ :=
    h.access hs ht hsift hany hnever (hgoes hv)
  refine ⟨f.type, (h.settles_propertyType hr₁ hs hany hnever ho hf hreq).imp ?_⟩
  rintro _ st₂ ⟨rfl, hr₂⟩
  refine ⟨rfl, (h.settles_check hr₂ hwithin ht).imp ?_⟩
  rintro v' _ ⟨_, _, hfails⟩
  by_contra hne
  exact hkept (hfails hne)

end Steady

/-! Without intersections verdicts may be kept. -/

/-- The same surroundings, but no verdicts are kept. -/
def Surroundings.forgetful (ctx : Surroundings σ) : Surroundings σ := { ctx with memoize := false }

section
variable {ctx : Surroundings σ} {φ : Features} {world : σ} {st : CheckState σ} {s t : Ty}
  {n : String}

theorem Surroundings.Level.forgetful (hc : ctx.Level) : ctx.forgetful.Level :=
  ⟨hc.unwrap, hc.objectOf⟩

/-- A fresh checker that keeps no verdicts decides assignability. -/
theorem goes_or_fails (hc : ctx.Level) (world : σ) (hs : s.InterRefFree) (ht : t.InterRefFree) :
    (Reading.asIs ctx.variance).Assignable s t ∧ Goes ctx.forgetful world s t ∨
      ¬(Reading.asIs ctx.variance).Assignable s t ∧ Fails ctx.forgetful world s t := by
  have hempty : (soundFrame (.asIs ctx.variance) (fun _ => True) Ty.InterRefFree).Inv
      (⟨Memo.empty, world⟩ : CheckState σ) := ⟨trivial, by simp [Memo.Sound, Memo.empty]⟩
  obtain ⟨bound, v, st', hrun, hiff, _⟩ :=
    hc.forgetful.readsWithoutInter.check_ends hempty rfl hs ht
  cases v with
  | none => exact .inl ⟨hiff.mp rfl, bound, fun d hd => ⟨st', hrun d hd⟩⟩
  | some m =>
    refine .inr ⟨fun ha => ?_, m, bound, fun d hd => ⟨st', hrun d hd⟩⟩
    cases hiff.mpr ha

theorem Surroundings.Level.settles_check (hc : ctx.Level) {Err : Fault → Prop}
    (hi : (soundFrame (.asIs ctx.variance) (fun _ => True) Ty.InterRefFree).Inv st)
    (hp : st.memo.pending = []) (hs : s.InterRefFree) (ht : t.InterRefFree) :
    Settles Err (fun d => check ctx d s t) st fun v st' =>
      (v = none ↔ (Reading.asIs ctx.variance).Assignable s t) ∧
      (soundFrame (.asIs ctx.variance) (fun _ => True) Ty.InterRefFree).Inv st' ∧
      st'.memo.pending = [] := by
  obtain ⟨bound, v, st', hrun, hv⟩ := hc.readsWithoutInter.check_ends hi hp hs ht
  exact ⟨bound, .ok v, st', hrun, hv⟩

theorem settles_access_interRefFree (hc : ctx.Level) (hφ : φ.Bare) (hni : ¬φ.inter)
    (hi : (soundFrame (.asIs ctx.variance) (fun _ => True) Ty.InterRefFree).Inv st)
    (hp : st.memo.pending = []) {label : Option String} (hs : Ty.Within φ s) (ht : Ty.Within φ t)
    (hsift : Ty.Everywhere Ty.Sifted s) (hany : s.isAny = false) (hnever : s.isNever = false) :
    Settles φ.Err (fun d => check ctx d s (Ty.having n t label)) st fun v st₁ => v = none → ∃ r,
      Settles (fun _ => False) (fun d => Member.propertyType ctx (check ctx d) d s n) st₁
        fun r' st₂ => r' = some r ∧
          Settles φ.Err (fun d => check ctx d r t) st₂ fun v' _ => v' = none := by
  have hfree : ∀ {u : Ty}, Ty.Within φ u → u.InterRefFree := Ty.interRefFree_of_within hφ hni
  have hwanted := hfree (Ty.within_having n ht label)
  have hsteady : Steady ctx.forgetful φ := ⟨hc.forgetful, hφ, rfl⟩
  refine (hc.settles_check hi hp (hfree hs) hwanted).imp ?_
  rintro v st₁ ⟨hiff, hi₁, hp₁⟩ hv
  rcases goes_or_fails hc st.world (hfree hs) hwanted with ⟨_, hg⟩ | ⟨hno, _⟩
  swap
  · exact (hno (hiff.mp hv)).elim
  obtain ⟨fs, f, ho, hf, hreq, hwithin, hkept, _⟩ :=
    hsteady.access hs ht hsift hany hnever hg
  have hoffers : s.offers = some fs := by
    obtain ⟨bound, hrun⟩ := ho
    obtain ⟨st', hrun⟩ := hrun (max bound s.size) (le_max_left _ _)
    simp only [Member.fieldsOf_noInterVariant hc.forgetful (hfree hs).noInterVariant
      (le_max_right _ _)] at hrun
    exact Except.ok.inj (Prod.mk.inj hrun).1
  have hread : ∀ d, s.size ≤ d →
      Member.propertyType ctx (check ctx d) d s n = pure (some f.type) := by
    intro d hd
    rw [Member.propertyType_noInterVariant hc (hfree hs).noInterVariant hd hoffers hf,
      Field.readType, if_neg (by simp [hreq])]
  refine ⟨f.type, Settles.congr hread (settles_pure ⟨rfl, ?_⟩)⟩
  refine (hc.settles_check hi₁ hp₁ (hfree hwithin) (hfree ht)).imp ?_
  rintro v' _ ⟨hiff', _⟩
  rcases goes_or_fails hc st.world (hfree hwithin) (hfree ht) with ⟨ha, _⟩ | ⟨_, hfails⟩
  · exact hiff'.mpr ha
  · exact (hkept hfails).elim

/-- The property can be read, and its type has a yes. Only the check of it may stop, at the index
of an intersection. -/
def ReadsBack (ctx : Surroundings σ) (φ : Features) (depth : Nat) (s : Ty) (n : String) (t : Ty)
    (st : CheckState σ) : Prop :=
  ∃ r st₁, (Member.propertyType ctx (check ctx depth) depth s n).run.run st = (.ok (some r), st₁) ∧
    ((∃ st₂, (check ctx depth r t).run.run st₁ = (.ok none, st₂)) ∨
      ∃ e st₂, (check ctx depth r t).run.run st₁ = (.error e, st₂) ∧ e.IsMisfit ∧ φ.inter ∧ φ.index)

theorem readsBack_eventually (hw : ¬φ.malformed) {r : Ty}
    (h : Settles (fun _ => False) (fun d => Member.propertyType ctx (check ctx d) d s n) st
      fun r' st₁ => r' = some r ∧
        Settles φ.Err (fun d => check ctx d r t) st₁ fun v _ => v = none) :
    ∃ bound, ∀ d, bound ≤ d → ReadsBack ctx φ d s n t st := by
  obtain ⟨b₁, read, st₁, hread, hr⟩ := h
  cases read with
  | error e => exact hr.elim
  | ok read =>
    obtain ⟨rfl, b₂, verdict, st₂, hcheck, hverdict⟩ := hr
    refine ⟨max b₁ b₂, fun d hd => ⟨r, st₁, hread d (by omega), ?_⟩⟩
    have hrun := hcheck d (by omega)
    cases verdict with
    | ok v =>
      cases hverdict
      exact .inl ⟨st₂, hrun⟩
    | error e =>
      rcases hverdict with ⟨hno, _⟩ | hmisfit
      · exact (hw hno).elim
      · exact .inr ⟨e, st₂, hrun, hmisfit⟩

/-- After any questions, a yes for an object with one required property means that the property can
be read and fits. -/
theorem propertyType_fits (hc : ctx.Level) (hφ : φ.Bare) (hw : ¬φ.malformed)
    (hkeep : ctx.memoize = false ∨ ¬φ.inter) {before : List Question}
    (hbefore : ∀ q ∈ before, Ty.Within φ q.source ∧ Ty.Within φ q.target) (hs : Ty.Within φ s)
    (ht : Ty.Within φ t) (hsift : Ty.Everywhere Ty.Sifted s) (hany : s ≠ Ty.any)
    (hnever : s ≠ Ty.never) (n : String) (label : Option String) (world : σ) :
    ∃ bound, ∀ depth, bound ≤ depth → ∀ earlier st,
      (answers ctx depth before).run.run ⟨Memo.empty, world⟩ = (.ok earlier, st) → ∀ st₁,
      (check ctx depth s (Ty.having n t label)).run.run st = (.ok none, st₁) →
      ReadsBack ctx φ depth s n t st₁ := by
  have hany' : s.isAny = false := by
    rw [← Bool.not_eq_true]
    exact fun he => hany (Inquiry.isAny_iff.mp he)
  have hnever' : s.isNever = false := by
    rw [← Bool.not_eq_true]
    exact fun he => hnever (Inquiry.isNever_iff.mp he)
  have hall : Settles φ.Err (fun d => answers ctx d before) ⟨Memo.empty, world⟩ fun _ st =>
      Settles φ.Err (fun d => check ctx d s (Ty.having n t label)) st fun v st₁ => v = none → ∃ r,
        Settles (fun _ => False) (fun d => Member.propertyType ctx (check ctx d) d s n) st₁
          fun r' st₂ => r' = some r ∧
            Settles φ.Err (fun d => check ctx d r t) st₂ fun v' _ => v' = none := by
    rcases hkeep with hm | hni
    · have h : Steady ctx φ := ⟨hc, hφ, hm⟩
      have hrest : (⟨Memo.empty, world⟩ : CheckState σ).AtRest world := ⟨rfl, rfl, rfl⟩
      exact (h.settles_answers hrest hbefore).imp fun _ _ hr =>
        h.settles_access hr hs ht hsift hany' hnever'
    · obtain ⟨bound, st, hrun, hi, hp⟩ := hc.readsWithoutInter.answers_settle ⟨Memo.empty, world⟩
        ⟨trivial, by simp [Memo.Sound, Memo.empty]⟩ rfl fun q hq =>
          ⟨Ty.interRefFree_of_within hφ hni (hbefore q hq).1,
            Ty.interRefFree_of_within hφ hni (hbefore q hq).2⟩
      exact ⟨bound, .ok _, st, hrun, settles_access_interRefFree hc hφ hni hi hp hs ht hsift hany'
        hnever'⟩
  have hruns : ∃ bound, ∀ depth, bound ≤ depth → ∀ earlier st,
      (answers ctx depth before).run.run ⟨Memo.empty, world⟩ = (.ok earlier, st) → ∀ v st₁,
      (check ctx depth s (Ty.having n t label)).run.run st = (.ok v, st₁) → v = none →
      ReadsBack ctx φ depth s n t st₁ := by
    refine hall.eventually fun _ st h => h.eventually fun v st₁ hv => ?_
    by_cases hyes : v = none
    · obtain ⟨r, hr⟩ := hv hyes
      obtain ⟨bound, hread⟩ := readsBack_eventually hw hr
      exact ⟨bound, fun d hd _ => hread d hd⟩
    · exact ⟨0, fun _ _ he => (hyes he).elim⟩
  obtain ⟨bound, hruns⟩ := hruns
  exact ⟨bound, fun d hd earlier st hb st₁ hyes => hruns d hd earlier st hb none st₁ hyes rfl⟩

end

/-- A union of an object and of an intersection with an index that has a union among its
members. -/
theorem propertyType_fits_blended :
    let text : Ty := .prim .string
    let number : Ty := .prim .number
    let labelled : Ty := .object [⟨"l", text, false⟩] none none
    let inner : Ty := .union
      [.object [⟨"n", .object [⟨"k", number, false⟩] none none, false⟩] none none,
        .object [⟨"m", text, true⟩, ⟨"n", Ty.any, false⟩] none none]
    let both : Ty := .inter [.object [⟨"n", labelled, false⟩]
      (some ⟨.string, .union [text, .object [] none none]⟩) none, inner]
    let s : Ty := .union [both, .object [⟨"n", labelled, false⟩] none none]
    let t : Ty := .object [⟨"l", .union [number, text], false⟩] none none
    let before : List Question := [⟨both, s⟩]
    let ctx := Env.surroundings .contravariant false
    (freshAnswers ctx 20 parity (before ++ [⟨s, Ty.having "n" t none⟩])).toOption =
        some [true, true] ∧
      ∃ bound, ∀ depth, bound ≤ depth → ∀ earlier st,
        (answers ctx depth before).run.run ⟨Memo.empty, parity⟩ = (.ok earlier, st) → ∀ st₁,
        (check ctx depth s (Ty.having "n" t none)).run.run st = (.ok none, st₁) →
        ReadsBack ctx .unnamed depth s "n" t st₁ := by
  intro text number labelled inner both s t before ctx
  have hproper : ∀ u ∈ [both, s, t], u.Proper := by
    have hw : ∀ u ∈ [both, s, t], Ty.holdsWithin Ty.WellShaped 8 u := by decide
    exact fun u hu => Ty.everywhere_of_holdsWithin (hw u hu)
  have hr : ∀ u ∈ [both, s, t], Ty.holdsWithin (Ty.isRef · = false) 8 u := by decide
  have hwithin : ∀ u ∈ [both, s, t], Ty.Within .unnamed u := fun u hu =>
    Ty.within_unnamed (hproper u hu) (Ty.everywhere_of_holdsWithin (hr u hu))
  have hsift : Ty.Everywhere Ty.Sifted s :=
    Ty.everywhere_of_holdsWithin (by decide : Ty.holdsWithin Ty.Sifted 8 s)
  refine ⟨by decide +kernel, propertyType_fits (Env.surroundings_level _ _) ⟨fun _ => rfl⟩ id
    (.inl rfl) ?_ (hwithin s (by simp)) (hwithin t (by simp)) hsift (by simp [s]) (by simp [s])
    "n" none parity⟩
  intro q hq
  rw [List.mem_singleton.mp hq]
  exact ⟨hwithin both (by simp), hwithin s (by simp)⟩

namespace Respelled

def one : Ty := .literal (.number (.int 1))

def oneAsDouble : Ty := .literal (.number (.double (.finite false 4503599627370496 (-52))))

def oneAndHalf : Ty := .literal (.number (.double (.finite false 6755399441055744 (-52))))

def shape (ps : List (String × Ty)) : Ty := .object (ps.map fun p => ⟨p.1, p.2, false⟩) none none

/-- The spelling of the number decides which of the members comes first. -/
def pair (number : Ty) : Ty :=
  Ty.meet [shape [("a", number), ("n", Ty.any)],
    shape [("a", oneAndHalf), ("n", .prim .string)]]

def source : Ty :=
  Ty.join [Ty.meet [shape [("A", pair oneAsDouble), ("n", .prim .number)],
      shape [("A", shape [("n", .prim .number)])]], pair one]

/-- Whether the source fits, whether the property is there, and whether it fits. -/
def session (memoize : Bool) : CheckM Env (List Bool) := do
  let ctx := Env.surroundings .contravariant memoize
  let fits ← check ctx 20 source (Ty.having "n" (.prim .number) none)
  let read ← Member.propertyType ctx (check ctx 20) 20 source "n"
  let verdict ← check ctx 20 (read.getD Ty.never) (.prim .number)
  return [fits.isNone, read.isSome, verdict.isNone]

/-- While the first member is checked, a verdict on one pair is kept and then taken for the other
one, which merges otherwise. -/
theorem access_disagrees :
    source.Proper ∧ Ty.Everywhere Ty.Sifted source ∧
      ((session true).run.run ⟨Memo.empty, parity⟩).1.toOption = some [true, true, false] ∧
      ((session false).run.run ⟨Memo.empty, parity⟩).1.toOption = some [false, true, false] := by
  have hw : Ty.holdsWithin Ty.WellShaped 8 source := by decide +kernel
  have hs : Ty.holdsWithin Ty.Sifted 8 source := by decide +kernel
  exact ⟨Ty.everywhere_of_holdsWithin hw, Ty.everywhere_of_holdsWithin hs, by decide +kernel⟩

end Respelled
end ShapeCheck
