import ShapeCheck.Proofs.Fit.History
import ShapeCheck.Proofs.Fit.InterRefFree

/-! The union of types is their least upper bound, however it was simplified: it fits a type
exactly if all of them do, and each of them fits it. -/

namespace ShapeCheck

namespace Ty
variable {t u : Ty} {ts : List Ty}

theorem InterRefFree.literal (l : Literal) : (Ty.literal l).InterRefFree :=
  ⟨.leaf trivial rfl, .leaf ⟨by simp [NotInter], by simp⟩ rfl⟩

theorem InterRefFree.array (h : t.InterRefFree) : (Ty.array t).InterRefFree :=
  ⟨.mk trivial (by simpa [children] using h.proper),
    .mk ⟨by simp [NotInter], by simp⟩ (by simpa [children] using h.notInterOrRef)⟩

theorem interRefFree_of_holdsWithin {n : Nat}
    (h : holdsWithin WellShaped n t ∧ holdsWithin NotInterOrRef n t) :
    t.InterRefFree :=
  ⟨everywhere_of_holdsWithin h.1, everywhere_of_holdsWithin h.2⟩

theorem InterRefFree.unionPart (h : t.InterRefFree) (hu : u ∈ unionParts t) : u.InterRefFree :=
  ⟨h.proper.unionPart hu, h.notInterOrRef.unionPart hu⟩

theorem InterRefFree.join (h : ∀ t ∈ ts, t.InterRefFree) : (join ts).InterRefFree := by
  have hparts : ∀ u ∈ ts.flatMap unionParts, u.Proper := by
    intro u hu
    obtain ⟨t, ht, hut⟩ := List.mem_flatMap.mp hu
    exact ((h t ht).unionPart hut).proper
  refine ⟨?_, .join ⟨by simp [NotInter], by simp⟩ (fun _ => ⟨by simp [NotInter], by simp⟩)
    fun t ht => (h t ht).notInterOrRef⟩
  have hshaped := wellShaped_join hparts
  rcases join_cases ts with hm | he | ⟨ms, he, _, _, hs⟩
  · exact hparts _ hm
  · exact he ▸ .leaf trivial rfl
  · rw [he] at hshaped ⊢
    exact .mk hshaped fun m hm => hparts m (hs.subset hm)

/-- Each type is equal to one that is kept. -/
theorem exists_distinct (h : t ∈ ts) : ∃ u ∈ distinct ts, u.same t := by
  induction ts with
  | nil => cases h
  | cons a ts ih =>
    rcases List.mem_cons.mp h with rfl | h
    · exact ⟨t, List.mem_cons_self, same_refl t⟩
    · obtain ⟨u, hu, hut⟩ := ih h
      by_cases ha : a.same u
      · exact ⟨a, List.mem_cons_self, same_trans ha hut⟩
      · exact ⟨u, List.mem_cons_of_mem a (List.mem_filter.mpr ⟨hu, by simpa using ha⟩), hut⟩

/-- The members that are left when a union is simplified. -/
def kept (ts : List Ty) : List Ty :=
  let members := distinct ((ts.flatMap unionParts).filter fun t => !t.isNever)
  members.filter fun t => !absorbedBy members t

theorem mem_of_mem_kept (h : t ∈ kept ts) : t ∈ ts.flatMap unionParts ∧ t.isNever = false := by
  have hm := (distinct_sublist _).subset (List.mem_of_mem_filter h)
  obtain ⟨hm, hn⟩ := List.mem_filter.mp hm
  exact ⟨hm, by simpa using hn⟩

/-- A part is `never`, equal to a member that is left, or a literal whose primitive is left. -/
theorem exists_kept (h : t ∈ ts.flatMap unionParts) :
    t = never ∨ (∃ u ∈ kept ts, u.same t) ∨
      ∃ l, (Ty.literal l).same t ∧ Ty.prim l.base ∈ kept ts := by
  by_cases hn : t.isNever
  · exact .inl (Inquiry.isNever_iff.mp hn)
  have hpart : t ∈ (ts.flatMap unionParts).filter fun t => !t.isNever :=
    List.mem_filter.mpr ⟨h, by simpa using hn⟩
  obtain ⟨u, hu, hut⟩ := exists_distinct hpart
  by_cases ha : absorbedBy (distinct ((ts.flatMap unionParts).filter fun t => !t.isNever)) u
  · cases u with
    | literal l =>
      obtain ⟨p, hp, hs⟩ := List.any_eq_true.mp ha
      obtain rfl := Inquiry.same_prim_right.mp hs
      exact .inr (.inr ⟨l, hut, List.mem_filter.mpr ⟨hp, rfl⟩⟩)
    | _ => cases ha
  · exact .inr (.inl ⟨u, List.mem_filter.mpr ⟨hu, by simpa using ha⟩, hut⟩)

/-- Without `any`, a union is what is left of its members. -/
theorem join_eq (ha : ∀ t ∈ ts.flatMap unionParts, t ≠ any) :
    (kept ts = [] ∧ join ts = never) ∨ (∃ t, kept ts = [t] ∧ join ts = t) ∨
      join ts = .union (arrange (kept ts)) := by
  have hany : (ts.flatMap unionParts).any isAny = false := by
    rw [List.any_eq_false]
    exact fun t ht h => ha t ht (eq_any_of_isAny h)
  simp only [join, hany, Bool.false_eq_true, if_false]
  rw [← kept]
  split
  · exact .inl ⟨‹_›, rfl⟩
  · exact .inr (.inl ⟨_, ‹_›, rfl⟩)
  · exact .inr (.inr rfl)

/-- A union that can be built has two members that differ, so one of them is not `never`. -/
theorem Proper.exists_ne_never {ms : List Ty} (h : (union ms).Proper) : ∃ m ∈ ms, m ≠ never := by
  obtain ⟨hl, hd⟩ := h.here
  rcases ms with _ | ⟨a, _ | ⟨b, ms⟩⟩
  · simp at hl
  · simp at hl
  · by_contra hall
    push Not at hall
    have hab := (List.pairwise_cons.mp hd).1 b (by simp)
    rw [hall a (by simp), hall b (by simp), same_refl] at hab
    cases hab

/-- Nothing is left exactly if nothing but `never` was given. -/
theorem kept_eq_nil_iff (hp : ∀ t ∈ ts, t.Proper) : kept ts = [] ↔ ∀ t ∈ ts, t = never := by
  constructor
  · intro hk t ht
    have hnever : ∀ u ∈ unionParts t, u = never := by
      intro u hu
      rcases exists_kept (List.mem_flatMap.mpr ⟨t, ht, hu⟩) with h | ⟨m, hm, _⟩ | ⟨l, _, hm⟩
      · exact h
      · simp [hk] at hm
      · simp [hk] at hm
    cases t with
    | union ms =>
      obtain ⟨m, hm, hne⟩ := (hp _ ht).exists_ne_never
      exact (hne (hnever m hm)).elim
    | _ => exact hnever _ (by simp [unionParts])
  · intro h
    rw [List.eq_nil_iff_forall_not_mem]
    intro u hu
    obtain ⟨hm, hn⟩ := mem_of_mem_kept hu
    obtain ⟨t, ht, hut⟩ := List.mem_flatMap.mp hm
    rw [h t ht] at hut
    rw [List.mem_singleton.mp hut] at hn
    cases hn

theorem join_eq_never_iff (hp : ∀ t ∈ ts, t.Proper) : join ts = never ↔ ∀ t ∈ ts, t = never := by
  by_cases ha : ∀ t ∈ ts.flatMap unionParts, t ≠ any
  · rw [← kept_eq_nil_iff hp]
    rcases join_eq ha with ⟨hk, he⟩ | ⟨t, hk, he⟩ | he
    · simp [hk, he]
    · have hn := (mem_of_mem_kept (hk ▸ List.mem_singleton_self t)).2
      rw [he, hk]
      simp only [List.cons_ne_self, iff_false]
      rintro rfl
      cases hn
    · have hshaped := wellShaped_join fun u hu => by
        obtain ⟨t, ht, hut⟩ := List.mem_flatMap.mp hu
        exact (hp t ht).unionPart hut
      rw [he] at hshaped ⊢
      refine ⟨by simp [never], fun hk => ?_⟩
      simp [hk, WellShaped, arrange, Text.sortOn, Text.sortByKey] at hshaped
  · push Not at ha
    obtain ⟨a, hm, rfl⟩ := ha
    obtain ⟨t, ht, hat⟩ := List.mem_flatMap.mp hm
    have hany : (ts.flatMap unionParts).any isAny := List.any_eq_true.mpr ⟨any, hm, rfl⟩
    simp only [join, hany, if_true]
    refine ⟨by simp [any, never], fun h => ?_⟩
    rw [h t ht] at hat
    cases List.mem_singleton.mp hat

end Ty

namespace Reading
variable {variance : Variance} {s t m : Ty} {ms ts : List Ty}

theorem asIs_iff : (asIs variance).Assignable s t ↔
    (asIs variance).FitsBy (asIs variance).Assignable s t := assignable_iff

/-- The members of a union fit what it fits, if what fits a member fits a union with it. -/
theorem assignable_member_of
    (hup : ∀ a ∈ ms, ∀ {b : Ty} {bs : List Ty}, b ∈ bs → (asIs variance).Assignable a b →
      (asIs variance).Assignable a (.union bs))
    (h : (asIs variance).Assignable (.union ms) t) (hm : m ∈ ms) :
    (asIs variance).Assignable m t := by
  cases asIs_iff.mp h with
  | equal he =>
    obtain ⟨bs, rfl, _, hb⟩ := Ty.same_union_iff.mp he
    obtain ⟨b, hbm, hmb⟩ := hb m hm
    exact hup m hm hbm (asIs_iff.mpr (.equal hmb))
  | toAny => exact asIs_iff.mpr (.toAny m)
  | fromUnion _ hall => exact hall m hm
  | toUnion hn => exact (hn ms rfl).elim

/-- What fits a member fits the union. The induction is on the source, since of a source that is
a union the members are looked at first. -/
theorem assignable_union (hm : m ∈ ms) (h : (asIs variance).Assignable s m) :
    (asIs variance).Assignable s (.union ms) := by
  induction s using Ty.child_induction generalizing m ms with
  | step s ih =>
    by_cases hs : ∃ ns, s = .union ns
    · obtain ⟨ns, rfl⟩ := hs
      apply asIs_iff.mpr
      apply FitsBy.fromUnion (by simp)
      intro n hn
      apply ih n hn hm
      exact assignable_member_of (fun a ha _ _ => ih a ha) h hn
    · exact asIs_iff.mpr (.toUnion (fun ns he => hs ⟨ns, he⟩) hm h)

theorem assignable_union_left_iff (ht : t ≠ Ty.never) :
    (asIs variance).Assignable (.union ms) t ↔ ∀ m ∈ ms, (asIs variance).Assignable m t :=
  ⟨fun h _ hm => assignable_member_of (fun _ _ _ _ => assignable_union) h hm,
    fun h => asIs_iff.mpr (.fromUnion ht h)⟩

theorem assignable_parts_iff (ht : t ≠ Ty.never) :
    (∀ p ∈ s.unionParts, (asIs variance).Assignable p t) ↔ (asIs variance).Assignable s t := by
  cases s with
  | union ms => exact (assignable_union_left_iff ht).symm
  | _ => simp [Ty.unionParts]

/-- A literal fits what its primitive fits. -/
theorem assignable_literal {l : Literal} (h : (asIs variance).Assignable (.prim l.base) t) :
    (asIs variance).Assignable (.literal l) t := by
  induction t using Ty.child_induction with
  | step t ih =>
    apply asIs_iff.mpr
    have hfits := asIs_iff.mp h
    generalize hk : Ty.prim l.base = p at hfits
    cases hfits with
    | equal he =>
      subst hk
      obtain rfl := Ty.same_prim_iff.mp he
      exact .literalToPrim l
    | toAny => exact .toAny _
    | toUnion _ hm hpm =>
      subst hk
      exact .toUnion (by simp) hm (ih _ hm hpm)
    | _ => cases l <;> cases hk

/-- What is left of the members of a union fits a type exactly if all that was given does. -/
theorem assignable_kept_iff (hts : ∀ s ∈ ts, s.InterRefFree) (ht : t.InterRefFree) :
    (∀ u ∈ Ty.kept ts, (asIs variance).Assignable u t) ↔
      ∀ p ∈ ts.flatMap Ty.unionParts, (asIs variance).Assignable p t := by
  have hparts : ∀ p ∈ ts.flatMap Ty.unionParts, p.InterRefFree := by
    intro p hp
    obtain ⟨s, hs, hps⟩ := List.mem_flatMap.mp hp
    exact (hts s hs).unionPart hps
  have hequal : ∀ {a p : Ty}, a.InterRefFree → p.InterRefFree → a.same p →
    (asIs variance).Assignable a t →
      (asIs variance).Assignable p t := fun ha hp he =>
    respects_assignable (faithful_asIs variance) ha hp ht ht he (Ty.same_refl t)
  constructor
  · intro h p hp
    rcases Ty.exists_kept hp with rfl | ⟨u, hu, he⟩ | ⟨l, he, hl⟩
    · exact asIs_iff.mpr (.fromNever t)
    · exact hequal (hparts u (Ty.mem_of_mem_kept hu).1) (hparts p hp) he (h u hu)
    · exact hequal (.literal l) (hparts p hp) he (assignable_literal (h _ hl))
  · intro h u hu
    exact h u (Ty.mem_of_mem_kept hu).1

theorem assignable_never_iff (hs : s.Proper) :
    (asIs variance).Assignable s Ty.never ↔ s = Ty.never :=
  ⟨fun h => (asIs_iff.mp h).eq_never hs rfl, fun h => h ▸ assignable_refl _⟩

/-- A union of types without intersections and references fits a type exactly if each of them
does. -/
theorem assignable_join_iff (hts : ∀ s ∈ ts, s.InterRefFree)
    (ha : ∀ s ∈ ts, ∀ p ∈ s.unionParts, p ≠ Ty.any) (ht : t.InterRefFree) :
    (asIs variance).Assignable (Ty.join ts) t ↔ ∀ s ∈ ts, (asIs variance).Assignable s t := by
  have hany : ∀ p ∈ ts.flatMap Ty.unionParts, p ≠ Ty.any := by
    intro p hp
    obtain ⟨s, hs, hps⟩ := List.mem_flatMap.mp hp
    exact ha s hs p hps
  by_cases hn : t = Ty.never
  · subst hn
    have hproper : ∀ s ∈ ts, s.Proper := fun s hs => (hts s hs).proper
    rw [assignable_never_iff (Ty.InterRefFree.join hts).proper, Ty.join_eq_never_iff hproper]
    exact forall₂_congr fun s hs => (assignable_never_iff (hproper s hs)).symm
  · calc (asIs variance).Assignable (Ty.join ts) t
        ↔ ∀ u ∈ Ty.kept ts, (asIs variance).Assignable u t := by
          rcases Ty.join_eq hany with ⟨hk, he⟩ | ⟨u, hk, he⟩ | he
          · simp [hk, he, asIs_iff.mpr (.fromNever t)]
          · simp [hk, he]
          · rw [he, assignable_union_left_iff hn]
            exact forall_congr' fun u => by rw [Ty.arrange, (Text.sortOn_perm _ _).mem_iff]
      _ ↔ ∀ p ∈ ts.flatMap Ty.unionParts, (asIs variance).Assignable p t :=
          assignable_kept_iff hts ht
      _ ↔ ∀ s ∈ ts, (asIs variance).Assignable s t := by
          simp only [List.mem_flatMap, forall_exists_index, and_imp]
          constructor
          · intro h s hs
            exact (assignable_parts_iff hn).mp fun p hp => h p s hs hp
          · intro h p s hs hp
            exact (assignable_parts_iff hn).mpr (h s hs) p hp

end Reading

/-- A checker says that a union fits a type exactly if it says so of all that the union was made
from, and that each of them fits the union, whatever it was asked before about types without
intersections and references; and a fresh one gives the same answer to each question. -/
theorem join_least_upper_bound {σ : Type} {ctx : Surroundings σ}
    (hlook : ∀ t : Ty, (∀ n, t ≠ .ref n) → ctx.unwrap t = pure t) (world : σ)
    {before : List Question} (hb : ∀ q ∈ before, q.source.InterRefFree ∧ q.target.InterRefFree)
    {ts : List Ty} {u : Ty} (hts : ∀ t ∈ ts, t.InterRefFree)
    (ha : ∀ t ∈ ts, ∀ p ∈ t.unionParts, p ≠ Ty.any) (hu : u.InterRefFree) :
    ∃ bound earlier below, earlier.length = before.length ∧ ∀ depth, bound ≤ depth →
      freshAnswers ctx depth world (before ++ ⟨Ty.join ts, u⟩ :: ts.map (⟨·, u⟩) ++
          ts.map (⟨·, Ty.join ts⟩)) =
        .ok (earlier ++ below.all id :: below ++ ts.map fun _ => true) ∧
      freshAnswers ctx depth world [⟨Ty.join ts, u⟩] = .ok [below.all id] ∧
      List.Forall₂ (fun t b => freshAnswers ctx depth world [⟨t, u⟩] = .ok [b]) ts below ∧
      ∀ t ∈ ts, freshAnswers ctx depth world [⟨t, Ty.join ts⟩] = .ok [true] := by
  classical
  have hfresh : ∀ qs : List Question, (∀ q ∈ qs, q.source.InterRefFree ∧ q.target.InterRefFree) →
      ∃ bound, ∀ depth, bound ≤ depth → freshAnswers ctx depth world qs =
        .ok (qs.map fun q => decide ((Reading.asIs ctx.variance).Assignable q.source q.target)) :=
    (Reading.readsWithoutInter_asIs rfl hlook).freshAnswers_end trivial
  have hjoin := Ty.InterRefFree.join hts
  have hbelow : (Reading.asIs ctx.variance).Assignable (Ty.join ts) u ↔
      ∀ t ∈ ts, (Reading.asIs ctx.variance).Assignable t u :=
    Reading.assignable_join_iff hts ha hu
  have hmembers : ∀ t ∈ ts, (Reading.asIs ctx.variance).Assignable t (Ty.join ts) :=
    (Reading.assignable_join_iff hts ha hjoin).mp (Reading.assignable_refl _)
  have halone : ∀ t ∈ ts, ∃ bound, ∀ depth, bound ≤ depth →
      freshAnswers ctx depth world [⟨t, u⟩] =
        .ok [decide ((Reading.asIs ctx.variance).Assignable t u)] ∧
      freshAnswers ctx depth world [⟨t, Ty.join ts⟩] = .ok [true] := by
    intro t ht
    obtain ⟨b, h⟩ := hfresh [⟨t, u⟩] (by simp [hts t ht, hu])
    obtain ⟨c, h'⟩ := hfresh [⟨t, Ty.join ts⟩] (by simp [hts t ht, hjoin])
    refine ⟨max b c, fun depth hd => ⟨h depth (by omega), ?_⟩⟩
    simpa [hmembers t ht] using h' depth (by omega)
  obtain ⟨b₁, h₁⟩ := exists_common_bound halone
  obtain ⟨b₂, h₂⟩ := hfresh [⟨Ty.join ts, u⟩] (by simp [hjoin, hu])
  obtain ⟨b₃, h₃⟩ := hfresh
    (before ++ ⟨Ty.join ts, u⟩ :: ts.map (⟨·, u⟩) ++ ts.map (⟨·, Ty.join ts⟩)) (by
      simp only [List.mem_append, List.mem_cons, List.mem_map]
      rintro q ((hq | rfl | ⟨t, ht, rfl⟩) | ⟨t, ht, rfl⟩)
      · exact hb q hq
      · exact ⟨hjoin, hu⟩
      · exact ⟨hts t ht, hu⟩
      · exact ⟨hts t ht, hjoin⟩)
  have hall : decide ((Reading.asIs ctx.variance).Assignable (Ty.join ts) u) =
      (ts.map fun t => decide ((Reading.asIs ctx.variance).Assignable t u)).all id := by
    rw [Bool.eq_iff_iff]
    simpa using hbelow
  have htrue : (ts.map fun t => decide ((Reading.asIs ctx.variance).Assignable t (Ty.join ts))) =
      ts.map fun _ => true :=
    List.map_congr_left fun t ht => by simp [hmembers t ht]
  refine ⟨max b₁ (max b₂ b₃), before.map fun q =>
      decide ((Reading.asIs ctx.variance).Assignable q.source q.target),
    ts.map fun t => decide ((Reading.asIs ctx.variance).Assignable t u), by simp, ?_⟩
  intro depth hd
  refine ⟨?_, ?_, ?_, fun t ht => (h₁ depth (by omega) t ht).2⟩
  · rw [h₃ depth (by omega), ← hall, ← htrue]
    simp [Function.comp_def]
  · rw [h₂ depth (by omega), ← hall]
    rfl
  · rw [List.forall₂_map_right_iff, List.forall₂_same]
    exact fun t ht => (h₁ depth (by omega) t ht).1

/-- A union within a union, `never`, and a literal next to its primitive in one of the types, with
a function among them and with parameters compared both ways. -/
theorem join_least_upper_bound_nested :
    let text : Ty := .prim .string
    let one : Ty := .literal (.text "one")
    let narrow : Ty := .func [⟨[⟨"x", one, false, false⟩], text⟩] none
    let wide : Ty := .func [⟨[⟨"x", text, false, false⟩], text⟩] none
    let ts : List Ty := [.union [Ty.never, .union [Ty.never, one], text], one, narrow]
    let u : Ty := .union [wide, .union [text, Ty.void]]
    let before : List Question := [⟨narrow, wide⟩]
    (∀ t ∈ ts, t.InterRefFree) ∧ (∀ t ∈ ts, ∀ p ∈ t.unionParts, p ≠ Ty.any) ∧ u.InterRefFree ∧
      ∃ bound earlier below, earlier.length = before.length ∧ ∀ depth, bound ≤ depth →
        freshAnswers (Env.surroundings .bivariant true) depth parity
            (before ++ ⟨Ty.join ts, u⟩ :: ts.map (⟨·, u⟩) ++ ts.map (⟨·, Ty.join ts⟩)) =
          .ok (earlier ++ below.all id :: below ++ ts.map fun _ => true) ∧
        freshAnswers (Env.surroundings .bivariant true) depth parity [⟨Ty.join ts, u⟩] =
          .ok [below.all id] ∧
        List.Forall₂ (fun t b => freshAnswers (Env.surroundings .bivariant true) depth parity
          [⟨t, u⟩] = .ok [b]) ts below ∧
        ∀ t ∈ ts, freshAnswers (Env.surroundings .bivariant true) depth parity
          [⟨t, Ty.join ts⟩] = .ok [true] := by
  intro text one narrow wide ts u before
  have hfree : ∀ v ∈ narrow :: wide :: u :: ts, v.InterRefFree := by
    have hw : ∀ v ∈ narrow :: wide :: u :: ts,
        Ty.holdsWithin Ty.WellShaped 5 v ∧ Ty.holdsWithin Ty.NotInterOrRef 5 v := by decide
    exact fun v hv =>
      ⟨Ty.everywhere_of_holdsWithin (hw v hv).1, Ty.everywhere_of_holdsWithin (hw v hv).2⟩
  have hts : ∀ t ∈ ts, t.InterRefFree := fun t ht => hfree t (by simp [ht])
  have hu : u.InterRefFree := hfree u (by simp)
  have ha : ∀ t ∈ ts, ∀ p ∈ t.unionParts, p ≠ Ty.any := by
    simp [ts, text, one, narrow, Ty.unionParts]
  refine ⟨hts, ha, hu, join_least_upper_bound (fun _ => Env.unwrap_eq_pure) parity ?_ hts ha hu⟩
  intro q hq
  rw [List.mem_singleton.mp hq]
  exact ⟨hfree narrow (by simp), hfree wide (by simp)⟩

end ShapeCheck
