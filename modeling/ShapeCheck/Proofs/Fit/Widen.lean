import ShapeCheck.Proofs.Ty.Laws

/-! Widening is a closure operator: it leads upwards, once is enough, and what fits still fits when
both sides are widened. -/

namespace ShapeCheck

namespace Ty
variable {p s t : Ty} {ms ts xs ys : List Ty}

theorem widenList_eq_map (ts : List Ty) : widenList ts = ts.map widen := by
  induction ts with
  | nil => rfl
  | cons t ts ih => rw [widenList, ih, List.map_cons]

theorem widen_union (ms : List Ty) : (union ms).widen = join (ms.map widen) := by
  rw [widen, widenList_eq_map]

/-- Neither a union nor a literal, so that there is nothing to widen. -/
def Wide (t : Ty) : Prop := (∀ ms, t ≠ .union ms) ∧ ∀ l, t ≠ .literal l

theorem Wide.widen_eq (h : t.Wide) : t.widen = t := by
  cases t with
  | union ms => exact (h.1 ms rfl).elim
  | literal l => exact (h.2 l rfl).elim
  | _ => rfl

/-- Widening is by the members of unions, down to types that are neither unions nor literals. -/
theorem widen_cases (t : Ty) : (∃ ms, t = .union ms) ∨ (∃ l, t = .literal l) ∨ t.Wide := by
  cases t with
  | union ms => exact .inl ⟨ms, rfl⟩
  | literal l => exact .inr (.inl ⟨l, rfl⟩)
  | _ => exact .inr (.inr ⟨by simp, by simp⟩)

theorem wide_prim (k : Prim) : (prim k).Wide := ⟨by simp, by simp⟩

/-- The members of a widened type are widened. -/
theorem wide_of_mem_widen (hp : p ∈ t.widen.unionParts) : p.Wide := by
  induction t using child_induction generalizing p with
  | step t ih =>
    rcases t.widen_cases with ⟨ms, rfl⟩ | ⟨l, rfl⟩ | hw
    · rw [widen_union] at hp
      have hparts : ∀ q ∈ (ms.map widen).flatMap unionParts, q.Wide := by
        simp only [List.mem_flatMap, List.mem_map]
        rintro q ⟨_, ⟨m, hm, rfl⟩, hq⟩
        exact ih m hm hq
      rcases join_cases (ms.map widen) with hm | hn | ⟨ks, hk, _, _, hsub⟩
      · have hw := hparts _ hm
        rw [unionParts_eq_self hw.1, List.mem_singleton] at hp
        exact hp ▸ hw
      · rw [hn] at hp
        exact List.mem_singleton.mp hp ▸ wide_prim .never
      · rw [hk] at hp
        exact hparts p (hsub.subset hp)
    · exact List.mem_singleton.mp hp ▸ wide_prim _
    · rw [hw.widen_eq, unionParts_eq_self hw.1, List.mem_singleton] at hp
      exact hp ▸ hw

theorem InterRefFree.widen (h : t.InterRefFree) : t.widen.InterRefFree := by
  induction t using child_induction with
  | step t ih =>
    rcases t.widen_cases with ⟨ms, rfl⟩ | ⟨l, rfl⟩ | hw
    · rw [widen_union]
      apply InterRefFree.join
      simp only [List.mem_map]
      rintro _ ⟨m, hm, rfl⟩
      exact ih m hm (h.child hm)
    · exact .prim _
    · rwa [hw.widen_eq]

theorem InterRefFree.map_widen (h : (union ms).InterRefFree) :
    ∀ x ∈ ms.map Ty.widen, x.InterRefFree := by
  simp only [List.mem_map]
  rintro _ ⟨m, hm, rfl⟩
  exact (h.child hm).widen

theorem flat_widen (h : t.InterRefFree) : t.widen.Flat := by
  refine ⟨fun p hp => (wide_of_mem_widen hp).1, ?_⟩
  have hi : ∀ ms, t.widen ≠ .inter ms := h.widen.notInterOrRef.here.1
  simpa [interParts_eq_self hi] using hi

theorem flat_map_widen (h : (union ms).InterRefFree) : ∀ x ∈ ms.map widen, x.Flat := by
  simp only [List.mem_map]
  rintro _ ⟨m, hm, rfl⟩
  exact flat_widen (h.child hm)

theorem widen_eq_never_iff (h : t.InterRefFree) : t.widen = never ↔ t = never := by
  induction t using child_induction with
  | step t ih =>
    rcases t.widen_cases with ⟨ms, rfl⟩ | ⟨l, rfl⟩ | hw
    · rw [widen_union, join_eq_never_iff fun x hx => (h.map_widen x hx).proper]
      refine ⟨fun hall => ?_, nofun⟩
      obtain ⟨m, hm, hne⟩ := h.proper.exists_ne_never
      exact (hne ((ih m hm (h.child hm)).mp (hall _ (List.mem_map_of_mem hm)))).elim
    · cases l <;> simp [widen, Literal.base, never]
    · rw [hw.widen_eq]

/-- The members of a union may be joined in place of it, if none of them is a union. -/
theorem join_members (h : ∀ m ∈ ms, ∀ ns, m ≠ .union ns) : join ms = join [union ms] := by
  have hparts : ms.flatMap unionParts = [union ms].flatMap unionParts := by
    simp only [List.flatMap_cons, List.flatMap_nil, List.append_nil, unionParts]
    calc ms.flatMap unionParts = ms.flatMap fun m => [m] :=
          List.flatMap_congr fun m hm => unionParts_eq_self (h m hm)
      _ = ms := List.flatMap_singleton' ms
  simp only [join, hparts]

theorem widen_widen (h : t.InterRefFree) : t.widen.widen.same t.widen := by
  by_cases hu : ∃ ks, t.widen = .union ks
  · obtain ⟨ks, hk⟩ := hu
    have hw : ∀ k ∈ ks, k.Wide := fun k hm => wide_of_mem_widen (by rw [hk]; exact hm)
    have hstay : ks.map widen = ks :=
      (List.map_congr_left fun k hm => (hw k hm).widen_eq).trans (List.map_id' ks)
    obtain ⟨ms, rfl⟩ : ∃ ms, t = .union ms := by
      rcases t.widen_cases with hm | ⟨l, rfl⟩ | ht
      · exact hm
      · cases hk
      · exact ⟨ks, ht.widen_eq ▸ hk⟩
    rw [hk, widen_union, hstay, join_members fun k hm => (hw k hm).1, ← hk, widen_union]
    have hp : ∀ x ∈ ms.map widen ++ [], x.Proper := by
      rw [List.append_nil]
      exact fun x hx => (h.map_widen x hx).proper
    have hjoin := join_join hp (flat_map_widen h)
    rwa [List.append_nil] at hjoin
  · have hparts := unionParts_eq_self (not_exists.mp hu)
    have hw : t.widen.Wide := wide_of_mem_widen (hparts ▸ List.mem_singleton_self _)
    rw [hw.widen_eq]
    exact same_refl _

/-- Equal types are equal when widened. -/
theorem widen_same (hs : s.InterRefFree) (ht : t.InterRefFree) (h : s.same t) :
    s.widen.same t.widen := by
  induction s using child_induction generalizing t with
  | step s ih =>
    rcases s.widen_cases with ⟨ms, rfl⟩ | ⟨l, rfl⟩ | hw
    · obtain ⟨ns, rfl, hlen, hin⟩ := same_union_iff.mp h
      have hback := included_back hlen hs.proper.here.2
        (fun a ha b _ => same_symm (hs.child ha).proper) hin
      rw [widen_union, widen_union]
      refine join_of_sameMembers (fun x hx => (hs.map_widen x hx).proper)
        (fun x hx => (ht.map_widen x hx).proper) ⟨?_, ?_⟩
      · simp only [List.mem_map]
        rintro _ ⟨m, hm, rfl⟩
        obtain ⟨n, hn, hmn⟩ := hin m hm
        exact ⟨_, ⟨n, hn, rfl⟩, ih m hm (hs.child hm) (ht.child hn) hmn⟩
      · simp only [List.mem_map]
        rintro _ ⟨n, hn, rfl⟩
        obtain ⟨m, hm, hnm⟩ := hback n hn
        have hmn := ih m hm (hs.child hm) (ht.child hn) (same_symm (ht.child hn).proper hnm)
        exact ⟨_, ⟨m, hm, rfl⟩, same_symm (hs.child hm).widen.proper hmn⟩
    · obtain ⟨v, rfl, hv⟩ := same_literal_iff.mp h
      rw [widen, widen, Literal.base_eq_of_same hv]
      exact same_refl _
    · have ht' : t.Wide := by
        refine ⟨?_, ?_⟩
        · rintro ns rfl
          obtain ⟨ms, rfl, _⟩ := same_union_iff.mp (same_symm hs.proper h)
          exact hw.1 ms rfl
        · rintro l rfl
          obtain ⟨v, rfl, _⟩ := same_literal_iff.mp (same_symm hs.proper h)
          exact hw.2 v rfl
      rwa [hw.widen_eq, ht'.widen_eq]

end Ty

namespace Reading
variable {variance : Variance} {a p s t x : Ty} {xs : List Ty}

/-- What fits a literal fits its primitive. -/
theorem assignable_base {l : Literal} (h : (asIs variance).Assignable a (.literal l)) :
    (asIs variance).Assignable a (.prim l.base) := by
  have hne : Ty.prim l.base ≠ Ty.never := by cases l <;> simp [Literal.base, Ty.never]
  induction a using Ty.child_induction with
  | step a ih =>
    generalize hk : Ty.literal l = t at h
    cases asIs_iff.mp h with
    | equal he =>
      subst hk
      obtain ⟨v, rfl, hv⟩ := Ty.same_literal_right.mp he
      exact asIs_iff.mpr (Literal.base_eq_of_same hv ▸ .literalToPrim v)
    | fromNever => exact asIs_iff.mpr (.fromNever _)
    | fromAny => exact asIs_iff.mpr (.fromAny hne)
    | fromUnion _ hm =>
      subst hk
      exact asIs_iff.mpr (.fromUnion hne fun m hmem => ih m hmem (hm m hmem))
    | _ => cases hk

/-- What fits something that goes into a union fits the union. -/
theorem assignable_join_of_part (hxs : ∀ x ∈ xs, x.InterRefFree) (ha : a.InterRefFree)
    (hp : p ∈ xs.flatMap Ty.unionParts) (h : (asIs variance).Assignable a p) :
    (asIs variance).Assignable a (Ty.join xs) := by
  have hparts : ∀ q ∈ xs.flatMap Ty.unionParts, q.InterRefFree := by
    intro q hq
    obtain ⟨x, hx, hqx⟩ := List.mem_flatMap.mp hq
    exact (hxs x hx).unionPart hqx
  have hequal : ∀ {q : Ty}, q.InterRefFree → q.same p → (asIs variance).Assignable a q :=
    fun hq he =>
    respects_assignable (faithful_asIs variance) ha ha (hparts p hp) hq (Ty.same_refl a)
      (Ty.same_symm hq.proper he) h
  by_cases hany : ∀ q ∈ xs.flatMap Ty.unionParts, q ≠ Ty.any
  · have hkept : ∀ {u : Ty}, u ∈ Ty.kept xs → (asIs variance).Assignable a u →
        (asIs variance).Assignable a (Ty.join xs) := by
      intro u hu hau
      rcases Ty.join_eq hany with ⟨hk, _⟩ | ⟨v, hk, he⟩ | he
      · simp [hk] at hu
      · rw [hk] at hu
        rwa [he, ← List.mem_singleton.mp hu]
      · rw [he]
        exact assignable_union ((Text.sortOn_perm _ _).mem_iff.mpr hu) hau
    rcases Ty.exists_kept hp with rfl | ⟨u, hu, he⟩ | ⟨l, he, hl⟩
    · obtain rfl := (assignable_never_iff ha.proper).mp h
      exact asIs_iff.mpr (.fromNever _)
    · exact hkept hu (hequal (hparts u (Ty.mem_of_mem_kept hu).1) he)
    · exact hkept hl (assignable_base (hequal (.literal l) he))
  · push Not at hany
    obtain ⟨q, hq, rfl⟩ := hany
    rw [Ty.join_of_any (Ty.mem_brought.mpr ⟨List.mem_flatMap.mp hq, nofun⟩)]
    exact asIs_iff.mpr (.toAny a)

/-- A type that is no union fits a member of what it fits. -/
theorem exists_part (hs : ∀ ns, s ≠ .union ns) (h : (asIs variance).Assignable s t) :
    s = Ty.never ∨ (s = Ty.any ∧ t ≠ Ty.never) ∨
      ∃ p ∈ t.unionParts, (asIs variance).Assignable s p := by
  by_cases ht : ∃ ms, t = .union ms
  · obtain ⟨ms, rfl⟩ := ht
    cases asIs_iff.mp h with
    | equal he =>
      cases s with
      | union ns => exact (hs ns rfl).elim
      | _ => simp [Ty.same] at he
    | fromNever => exact .inl rfl
    | fromAny hn => exact .inr (.inl ⟨rfl, hn⟩)
    | fromUnion => exact (hs _ rfl).elim
    | toUnion _ hm hr => exact .inr (.inr ⟨_, hm, hr⟩)
  · refine .inr (.inr ⟨t, ?_, h⟩)
    simp [Ty.unionParts_eq_self (not_exists.mp ht)]

/-- What fits one of several types fits their union. As with the members of a written union, the
induction is on the source. -/
theorem assignable_join (hxs : ∀ x ∈ xs, x.InterRefFree) (ha : a.InterRefFree) (hx : x ∈ xs)
    (h : (asIs variance).Assignable a x) : (asIs variance).Assignable a (Ty.join xs) := by
  have hnever : x ≠ Ty.never → Ty.join xs ≠ Ty.never := fun hne he =>
    hne ((Ty.join_eq_never_iff fun y hy => (hxs y hy).proper).mp he x hx)
  induction a using Ty.child_induction with
  | step a ih =>
    by_cases hu : ∃ ns, a = .union ns
    · obtain ⟨ns, rfl⟩ := hu
      have hne : x ≠ Ty.never := by
        rintro rfl
        cases (assignable_never_iff ha.proper).mp h
      refine (assignable_union_left_iff (hnever hne)).mpr fun n hn => ?_
      exact ih n hn (ha.child hn) ((assignable_union_left_iff hne).mp h n hn)
    · rcases exists_part (not_exists.mp hu) h with rfl | ⟨rfl, hne⟩ | ⟨p, hp, hap⟩
      · exact asIs_iff.mpr (.fromNever _)
      · exact asIs_iff.mpr (.fromAny (hnever hne))
      · exact assignable_join_of_part hxs ha (List.mem_flatMap.mpr ⟨x, hx, hp⟩) hap

theorem assignable_widen (hs : s.InterRefFree) : (asIs variance).Assignable s s.widen := by
  induction s using Ty.child_induction with
  | step s ih =>
    rcases s.widen_cases with ⟨ms, rfl⟩ | ⟨l, rfl⟩ | hw
    · have hne : (Ty.union ms).widen ≠ Ty.never := fun h => by
        cases (Ty.widen_eq_never_iff hs).mp h
      refine (assignable_union_left_iff hne).mpr fun m hm => ?_
      rw [Ty.widen_union]
      exact assignable_join hs.map_widen (hs.child hm) (List.mem_map_of_mem hm)
        (ih m hm (hs.child hm))
    · exact asIs_iff.mpr (.literalToPrim l)
    · rw [hw.widen_eq]
      exact assignable_refl s

/-- What several types fit their union fits, unless it is `never`: next to `any` there is nothing
else that it would not fit. -/
theorem join_assignable (hxs : ∀ x ∈ xs, x.InterRefFree) (ht : t.InterRefFree) (hne : t ≠ Ty.never)
    (h : ∀ x ∈ xs, (asIs variance).Assignable x t) : (asIs variance).Assignable (Ty.join xs) t := by
  by_cases hany : Ty.any ∈ Ty.brought xs
  · rw [Ty.join_of_any hany]
    exact asIs_iff.mpr (.fromAny hne)
  · refine (assignable_join_iff hxs (fun x hx p hp he => hany ?_) ht).mpr h
    exact Ty.mem_brought.mpr ⟨⟨x, hx, he ▸ hp⟩, by simp⟩

/-- A union fits when widened if its members do. -/
theorem assignable_widen_union {ms : List Ty} (hs : (Ty.union ms).InterRefFree)
    (ht : t.InterRefFree) (hne : t ≠ Ty.never)
    (h : ∀ m ∈ ms, (asIs variance).Assignable m.widen t) :
    (asIs variance).Assignable (Ty.union ms).widen t := by
  rw [Ty.widen_union]
  exact join_assignable hs.map_widen ht hne (by simpa using h)

theorem Assignable.widen (hs : s.InterRefFree) (ht : t.InterRefFree)
    (h : (asIs variance).Assignable s t) :
    (asIs variance).Assignable s.widen t.widen := by
  induction s using Ty.child_induction generalizing t with
  | step s ihs =>
    induction t using Ty.child_induction with
    | step t iht =>
      have hne : t ≠ Ty.never → t.widen ≠ Ty.never := mt (Ty.widen_eq_never_iff ht).mp
      cases asIs_iff.mp h with
      | equal he => exact asIs_iff.mpr (.equal (Ty.widen_same hs ht he))
      | toAny => exact asIs_iff.mpr (.toAny _)
      | fromNever => exact asIs_iff.mpr (.fromNever _)
      | fromAny hn => exact asIs_iff.mpr (.fromAny (hne hn))
      | undefinedToVoid => exact asIs_iff.mpr .undefinedToVoid
      | literalToPrim l => exact assignable_refl _
      | fromUnion hn hm =>
        exact assignable_widen_union hs ht.widen (hne hn) fun m hmem =>
          ihs m hmem (hs.child hmem) ht (hm m hmem)
      | toUnion hn hm hr =>
        rw [Ty.widen_union]
        exact assignable_join ht.map_widen hs.widen (List.mem_map_of_mem hm)
          (iht _ hm (ht.child hm) hr)
      -- the other rules are about types that widening leaves as they are
      | _ => exact h

end Reading

/-- Widening leaves no literal among the members, twice is once, and a checker says that a type
fits what it is widened to and that types which fit do so when both are widened, whatever it was
asked before about types without intersections and references; and a fresh one gives the same
answer to each question. -/
theorem widen_closure {σ : Type} {ctx : Surroundings σ}
    (hlook : ∀ t : Ty, (∀ n, t ≠ .ref n) → ctx.unwrap t = pure t) (world : σ)
    {before : List Question} (hb : ∀ q ∈ before, q.source.InterRefFree ∧ q.target.InterRefFree)
    {s t : Ty} (hs : s.InterRefFree) (ht : t.InterRefFree) :
    (∀ p ∈ s.widen.unionParts, ∀ l, p ≠ .literal l) ∧ s.widen.widen.same s.widen ∧
      ∃ bound earlier fits widely, (fits = true → widely = true) ∧
        earlier.length = before.length ∧ ∀ depth, bound ≤ depth →
          freshAnswers ctx depth world
              (before ++ [⟨s, s.widen⟩, ⟨s, t⟩, ⟨s.widen, t.widen⟩]) =
            .ok (earlier ++ [true, fits, widely]) ∧
          freshAnswers ctx depth world [⟨s, s.widen⟩] = .ok [true] ∧
          freshAnswers ctx depth world [⟨s, t⟩] = .ok [fits] ∧
          freshAnswers ctx depth world [⟨s.widen, t.widen⟩] = .ok [widely] := by
  classical
  have hq : ∀ q ∈ [⟨s, s.widen⟩, ⟨s, t⟩, (⟨s.widen, t.widen⟩ : Question)],
      q.source.InterRefFree ∧ q.target.InterRefFree := by simp [hs, ht, hs.widen, ht.widen]
  obtain ⟨bound, earlier, hlen, hrun⟩ :=
    (Reading.readsWithoutInter_asIs rfl hlook).freshAnswers_each world trivial hb hq
  refine ⟨fun p hp => (Ty.wide_of_mem_widen hp).2, Ty.widen_widen hs, bound, earlier,
    decide ((Reading.asIs ctx.variance).Assignable s t),
    decide ((Reading.asIs ctx.variance).Assignable s.widen t.widen), ?_, hlen, fun depth hd => ?_⟩
  · simpa using Reading.Assignable.widen hs ht
  · obtain ⟨hall, halone⟩ := hrun depth hd
    simpa [Reading.assignable_widen hs] using And.intro hall halone

/-- Unions within unions, with `never` among the members and a literal next to its primitive. -/
theorem widen_closure_nested :
    let one : Ty := .literal (.text "one")
    let yes : Ty := .literal (.bool true)
    let s : Ty := .union [one, .union [Ty.never, yes]]
    let t : Ty := .union [.union [yes, .prim .boolean], one, Ty.never]
    let before : List Question := [⟨t, s⟩]
    s.InterRefFree ∧ t.InterRefFree ∧ (∀ p ∈ s.widen.unionParts, ∀ l, p ≠ .literal l) ∧
      s.widen.widen.same s.widen ∧
      ∃ bound earlier fits widely, (fits = true → widely = true) ∧
        earlier.length = before.length ∧ ∀ depth, bound ≤ depth →
          freshAnswers (Env.surroundings .bivariant true) depth parity
              (before ++ [⟨s, s.widen⟩, ⟨s, t⟩, ⟨s.widen, t.widen⟩]) =
            .ok (earlier ++ [true, fits, widely]) ∧
          freshAnswers (Env.surroundings .bivariant true) depth parity [⟨s, s.widen⟩] =
            .ok [true] ∧
          freshAnswers (Env.surroundings .bivariant true) depth parity [⟨s, t⟩] = .ok [fits] ∧
          freshAnswers (Env.surroundings .bivariant true) depth parity [⟨s.widen, t.widen⟩] =
            .ok [widely] := by
  intro one yes s t before
  have hfree : ∀ v ∈ [s, t], v.InterRefFree := by
    have hw : ∀ v ∈ [s, t],
        Ty.holdsWithin Ty.WellShaped 3 v ∧ Ty.holdsWithin Ty.NotInterOrRef 3 v := by decide
    exact fun v hv => Ty.interRefFree_of_holdsWithin (hw v hv)
  have hs := hfree s (by simp)
  have ht := hfree t (by simp)
  have hb : ∀ q ∈ before, q.source.InterRefFree ∧ q.target.InterRefFree := by simp [before, hs, ht]
  exact ⟨hs, ht, widen_closure (fun _ => Env.unwrap_eq_pure) parity hb hs ht⟩

end ShapeCheck
