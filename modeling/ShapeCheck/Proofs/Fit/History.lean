import ShapeCheck.Proofs.Env.Plain

/-! What a checker was asked before, and whether it keeps its verdicts, makes no difference to
questions about types without intersections. With intersections it does. -/

namespace ShapeCheck
variable {env : Env} {variance : Variance} {memoize : Bool}

/-- Whether each of several questions, put to one checker in turn, has a yes. -/
def answers {σ : Type} (ctx : Surroundings σ) (depth : Nat) : List Question → CheckM σ (List Bool)
  | [] => pure []
  | q :: qs => do
    let v ← check ctx depth q.source q.target
    return v.isNone :: (← answers ctx depth qs)

/-- The answers of a checker that begins with nothing on record. -/
def freshAnswers {σ : Type} (ctx : Surroundings σ) (depth : Nat) (world : σ) (qs : List Question) :
    Except Fault (List Bool) :=
  ((answers ctx depth qs).run.run ⟨Memo.empty, world⟩).1

open Classical in
/-- Questions in turn are answered by assignability, each from the state the last one left. -/
theorem ReadsWithoutInter.answers_settle {σ : Type} {ctx : Surroundings σ} {rd : Reading}
    {World : σ → Prop} {Adm : Ty → Prop} (h : ReadsWithoutInter ctx rd World Adm)
    (st : CheckState σ) (hi : (soundFrame rd World Adm).Inv st) (hp : st.memo.pending = [])
    {qs : List Question} (hq : ∀ q ∈ qs, Adm q.source ∧ Adm q.target) :
    ∃ bound st', (∀ depth, bound ≤ depth → (answers ctx depth qs).run.run st =
      (.ok (qs.map fun q => decide (rd.Assignable q.source q.target)), st')) ∧
      (soundFrame rd World Adm).Inv st' ∧ st'.memo.pending = [] := by
  induction qs generalizing st with
  | nil => exact ⟨0, st, fun _ _ => rfl, hi, hp⟩
  | cons q qs ih =>
    obtain ⟨hs, ht⟩ := hq q List.mem_cons_self
    obtain ⟨bound₁, v, st₁, hrun₁, hiff, hi₁, hp₁⟩ := h.check_ends hi hp hs ht
    obtain ⟨bound₂, st₂, hrun₂, hrest⟩ :=
      ih st₁ hi₁ hp₁ fun p hm => hq p (List.mem_cons_of_mem q hm)
    refine ⟨max bound₁ bound₂, st₂, fun depth hd => ?_, hrest⟩
    have hv : v.isNone = decide (rd.Assignable q.source q.target) := by
      rw [← hiff.eq]
      cases v <;> simp
    unfold answers
    rw [run_bind, hrun₁ depth (by omega)]
    dsimp only
    rw [run_bind, hrun₂ depth (by omega), hv]
    rfl

open Classical in
theorem ReadsWithoutInter.answers_end {σ : Type} {ctx : Surroundings σ} {rd : Reading}
    {World : σ → Prop} {Adm : Ty → Prop} (h : ReadsWithoutInter ctx rd World Adm)
    (st : CheckState σ) (hi : (soundFrame rd World Adm).Inv st) (hp : st.memo.pending = [])
    {qs : List Question} (hq : ∀ q ∈ qs, Adm q.source ∧ Adm q.target) :
    ∃ bound st', ∀ depth, bound ≤ depth → (answers ctx depth qs).run.run st =
      (.ok (qs.map fun q => decide (rd.Assignable q.source q.target)), st') := by
  obtain ⟨bound, st', hrun, _⟩ := h.answers_settle st hi hp hq
  exact ⟨bound, st', hrun⟩

open Classical in
theorem ReadsWithoutInter.freshAnswers_end {σ : Type} {ctx : Surroundings σ} {rd : Reading}
    {World : σ → Prop} {Adm : Ty → Prop} (h : ReadsWithoutInter ctx rd World Adm)
    {world : σ} (hw : World world) (qs : List Question)
    (hq : ∀ q ∈ qs, Adm q.source ∧ Adm q.target) :
    ∃ bound, ∀ depth, bound ≤ depth → freshAnswers ctx depth world qs =
      .ok (qs.map fun q => decide (rd.Assignable q.source q.target)) := by
  obtain ⟨bound, st', hrun⟩ := h.answers_end ⟨Memo.empty, world⟩ ⟨hw, nofun⟩ rfl hq
  exact ⟨bound, fun depth hd => by rw [freshAnswers, hrun depth hd]⟩

theorem exists_common_bound {α : Type} {p : α → Nat → Prop} {xs : List α}
    (h : ∀ x ∈ xs, ∃ bound, ∀ d, bound ≤ d → p x d) :
    ∃ bound, ∀ d, bound ≤ d → ∀ x ∈ xs, p x d := by
  induction xs with
  | nil => exact ⟨0, fun _ _ => nofun⟩
  | cons x xs ih =>
    obtain ⟨b, hb⟩ := h x List.mem_cons_self
    obtain ⟨c, hc⟩ := ih fun y hy => h y (List.mem_cons_of_mem x hy)
    refine ⟨max b c, fun d hd => List.forall_mem_cons.mpr ⟨hb d (by omega), hc d (by omega)⟩⟩

open Classical in
/-- What was asked before makes no difference to the answers that follow, and each of them is the
one a fresh checker gives. -/
theorem ReadsWithoutInter.freshAnswers_each {σ : Type} {ctx : Surroundings σ} {rd : Reading}
    {World : σ → Prop} {Adm : Ty → Prop} (h : ReadsWithoutInter ctx rd World Adm)
    (world : σ) (hw : World world) {before qs : List Question}
    (hb : ∀ q ∈ before, Adm q.source ∧ Adm q.target)
    (hq : ∀ q ∈ qs, Adm q.source ∧ Adm q.target) :
    ∃ bound earlier, earlier.length = before.length ∧ ∀ depth, bound ≤ depth →
      freshAnswers ctx depth world (before ++ qs) =
        .ok (earlier ++ qs.map fun q => decide (rd.Assignable q.source q.target)) ∧
      ∀ q ∈ qs, freshAnswers ctx depth world [q] =
        .ok [decide (rd.Assignable q.source q.target)] := by
  obtain ⟨b, hall⟩ := h.freshAnswers_end hw (before ++ qs) (List.forall_mem_append.mpr ⟨hb, hq⟩)
  obtain ⟨c, halone⟩ := exists_common_bound fun q hm =>
    h.freshAnswers_end hw [q] (by simpa using hq q hm)
  refine ⟨max b c, before.map fun q => decide (rd.Assignable q.source q.target), by simp, ?_⟩
  intro depth hd
  exact ⟨by rw [hall depth (by omega), List.map_append], halone depth (by omega)⟩

open Classical in
theorem freshAnswers_eq (hs : env.Settled) (hv : ∀ t ∈ env.values, t.Proper) (variance : Variance)
    {qs : List Question} (hq : ∀ q ∈ qs, env.Plain q.source ∧ env.Plain q.target) :
    ∃ bound, ∀ depth, bound ≤ depth → ∀ memoize ∈ [true, false],
      freshAnswers (Env.surroundings variance memoize) depth env qs =
        .ok (qs.map fun q => decide ((env.reading variance).Assignable q.source q.target)) := by
  exact exists_common_bound fun memoize _ =>
    (Env.readsWithoutInter hs hv variance memoize).freshAnswers_end rfl qs hq

/-- Answers to questions about plain types do not depend on whether verdicts are kept, and each is
the one a fresh checker gives to that question alone. -/
theorem answers_independent (hs : env.Settled) (hv : ∀ t ∈ env.values, t.Proper)
    (variance : Variance) {qs : List Question}
    (hq : ∀ q ∈ qs, env.Plain q.source ∧ env.Plain q.target) :
    ∃ bound as, ∀ depth, bound ≤ depth → ∀ memoize,
      freshAnswers (Env.surroundings variance memoize) depth env qs = .ok as ∧
      List.Forall₂ (fun q a =>
        freshAnswers (Env.surroundings variance memoize) depth env [q] = .ok [a]) qs as := by
  obtain ⟨b, hb⟩ := freshAnswers_eq hs hv variance hq
  have halone : ∀ q ∈ qs, ∀ p ∈ [q], env.Plain p.source ∧ env.Plain p.target := by
    intro q hm p hp
    rw [List.mem_singleton.mp hp]
    exact hq q hm
  obtain ⟨c, hc⟩ := exists_common_bound fun q hm => freshAnswers_eq hs hv variance (halone q hm)
  refine ⟨max b c, _, fun depth hd memoize => ⟨hb depth (by omega) memoize (by simp), ?_⟩⟩
  rw [List.forall₂_map_right_iff, List.forall₂_same]
  exact fun q hm => hc depth (by omega) q hm memoize (by simp)

/-- Two recursive objects, either of which may lead to the other. -/
def parity : Env where
  cells :=
    [⟨"Even", none, .settled (.object [⟨"value", .prim .number, false⟩,
        ⟨"next", .ref "Odd", false⟩] none (some "Even")), false⟩,
      ⟨"Odd", none, .settled (.object [⟨"value", .prim .number, false⟩,
        ⟨"next", .ref "Even", false⟩] none (some "Odd")), false⟩]
  resolving := []
  missing := []
  diagnostics := []
  duties := []

/-- Questions about mutually recursive names, in both directions and one of them twice. -/
theorem answers_independent_parity :
    let qs : List Question :=
      [⟨.ref "Even", .ref "Odd"⟩, ⟨.ref "Odd", .ref "Even"⟩, ⟨.ref "Even", .ref "Odd"⟩]
    parity.Settled ∧ (∀ t ∈ parity.values, t.Proper) ∧
      (∀ q ∈ qs, parity.Plain q.source ∧ parity.Plain q.target) ∧
      ∃ bound as, ∀ depth, bound ≤ depth → ∀ memoize,
        freshAnswers (Env.surroundings .bivariant memoize) depth parity qs = .ok as ∧
        List.Forall₂ (fun q a =>
          freshAnswers (Env.surroundings .bivariant memoize) depth parity [q] = .ok [a]) qs as := by
  intro qs
  have hs : parity.Settled := by decide
  have hv : ∀ t ∈ parity.values, Ty.holdsWithin Ty.WellShaped 2 t := by decide
  have hn : ∀ t ∈ parity.values, Ty.holdsWithin Ty.NotInter 2 t := by decide
  have hp : ∀ t ∈ parity.values, t.Proper := fun t ht => Ty.everywhere_of_holdsWithin (hv t ht)
  have hplain : ∀ n, parity.Plain (.ref n) :=
    Env.plain_ref fun t ht => Ty.everywhere_of_holdsWithin (hn t ht)
  have hq : ∀ q ∈ qs, parity.Plain q.source ∧ parity.Plain q.target := by
    simp [qs, hplain]
  exact ⟨hs, hp, hq, answers_independent hs hp .bivariant hq⟩

namespace Knot

def left : Ty := .object [⟨"r", .ref "X", false⟩, ⟨"s", .prim .string, false⟩] none none

def right : Ty := .object [⟨"r", .ref "O", false⟩, ⟨"s", .prim .number, false⟩] none none

/-- An intersection whose property has two types, one of which leads back to it. -/
def names : Env where
  cells :=
    [⟨"X", none, .settled (Ty.meet [.object [⟨"p", left, false⟩] none none,
        .object [⟨"p", right, false⟩] none none]), false⟩,
      ⟨"O", none, .settled (.object [⟨"p", .object [⟨"s", .prim .number, false⟩] none none, false⟩]
        none none), false⟩]
  resolving := []
  missing := []
  diagnostics := []
  duties := []

/-- A verdict that was reached while another question was under way is kept and changes a later
answer: whether `X` fits `O` depends on whether its two types were compared before. -/
theorem answers_depend_on_history :
    let qs : List Question := [⟨left, right⟩, ⟨.ref "X", .ref "O"⟩]
    names.Settled ∧ (∀ t ∈ names.values, t.Proper) ∧
      (freshAnswers (Env.surroundings .contravariant true) 20 names qs).toOption =
        some [false, false] ∧
      (freshAnswers (Env.surroundings .contravariant false) 20 names qs).toOption =
        some [false, true] ∧
      (freshAnswers (Env.surroundings .contravariant true) 20 names
        [⟨.ref "X", .ref "O"⟩]).toOption = some [true] := by
  have hv : ∀ t ∈ names.values, Ty.holdsWithin Ty.WellShaped 5 t := by decide
  exact ⟨by decide, fun t ht => Ty.everywhere_of_holdsWithin (hv t ht), by decide +kernel⟩

end Knot
end ShapeCheck
