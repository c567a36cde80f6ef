import ShapeCheck.Proofs.Fit.Mirror

/-! Checks in a world that changes under way, seen from where they end. Surroundings that stand
still and agree with the world at the end give the same answer and remember the same. -/

namespace ShapeCheck
variable {σ α β : Type}

/-- Surroundings whose world may change, and fixed ones that agree with every world from which they
are seen. -/
structure Hindsight (ctx : Surroundings σ) (fixed : Surroundings Unit) where
  Good : σ → Prop
  Step : σ → σ → Prop
  Sees : σ → Prop
  refl : ∀ w, Step w w
  trans : ∀ {a b c : σ}, Step a b → Step b c → Step a c
  sees : ∀ {w w' : σ}, Step w w' → Sees w' → Sees w
  unwrap : ∀ {w w' : σ} {t t' : Ty}, Good w → (ctx.unwrap t).run.run w = (.ok t', w') →
    Good w' ∧ Step w w' ∧ (Sees w' → fixed.unwrap t = pure t')
  variance : fixed.variance = ctx.variance
  memoize : fixed.memoize = ctx.memoize
  objectOf : fixed.objectOf = ctx.objectOf

namespace Hindsight
variable {ctx : Surroundings σ} {fixed : Surroundings Unit} (H : Hindsight ctx fixed)

/-- Whenever the first computation has a result, the second one has it too, with the same on
record, if the world that the first one ends in is seen. -/
def Reflects (act : CheckM σ α) (act' : CheckM Unit α) : Prop :=
  ∀ ⦃st : CheckState σ⦄ ⦃a : α⦄ ⦃st' : CheckState σ⦄, H.Good st.world →
    act.run.run st = (.ok a, st') → H.Good st'.world ∧ H.Step st.world st'.world ∧
      (H.Sees st'.world → act'.run.run ⟨st.memo, ()⟩ = (.ok a, ⟨st'.memo, ()⟩))

variable {H}

theorem reflects_pure (a : α) : H.Reflects (pure a) (pure a) := by
  intro st b st' hg hrun
  cases hrun
  exact ⟨hg, H.refl _, fun _ => rfl⟩

theorem reflects_throw {e : Fault} (act' : CheckM Unit α) : H.Reflects (throw e) act' := by
  intro st b st' _ hrun
  cases hrun

theorem Reflects.bind {act : CheckM σ α} {act' : CheckM Unit α} {f : α → CheckM σ β}
    {f' : α → CheckM Unit β} (h : H.Reflects act act') (hf : ∀ a, H.Reflects (f a) (f' a)) :
    H.Reflects (act >>= f) (act' >>= f') := by
  intro st b st'' hg hrun
  rw [run_bind] at hrun
  rcases hact : act.run.run st with ⟨r | a, st'⟩
  · rw [hact] at hrun
    cases hrun
  · rw [hact] at hrun
    obtain ⟨hg', hs, hfix⟩ := h hg hact
    obtain ⟨hg'', hs', hfix'⟩ := hf a hg' hrun
    refine ⟨hg'', H.trans hs hs', fun hsees => ?_⟩
    rw [run_bind, hfix (H.sees hs' hsees)]
    exact hfix' hsees

theorem reflects_memo : H.Reflects CheckM.memo CheckM.memo := by
  intro st a st' hg hrun
  cases hrun
  exact ⟨hg, H.refl _, fun _ => rfl⟩

theorem reflects_onMemo (f : Memo → Memo) : H.Reflects (CheckM.onMemo f) (CheckM.onMemo f) := by
  intro st a st' hg hrun
  cases hrun
  exact ⟨hg, H.refl _, fun _ => rfl⟩

theorem reflects_rethrow {act : CheckM σ α} {act' : CheckM Unit α} (f : Memo → Memo)
    (h : H.Reflects act act') :
    H.Reflects (tryCatch act fun e => do CheckM.onMemo f; throw e)
      (tryCatch act' fun e => do CheckM.onMemo f; throw e) := by
  intro st a st' hg hrun
  rw [run_tryCatch] at hrun
  rcases hact : act.run.run st with ⟨e | b, st₁⟩
  · rw [hact] at hrun
    cases hrun
  · rw [hact] at hrun
    cases hrun
    obtain ⟨hg', hs, hfix⟩ := h hg hact
    refine ⟨hg', hs, fun hsees => ?_⟩
    rw [run_tryCatch, hfix hsees]

theorem reflects_resolve (t : Ty) : H.Reflects (ctx.resolve t) (fixed.resolve t) := by
  intro st t' st' hg hrun
  have hin : (ctx.resolve t).run.run st = (((ctx.unwrap t).run.run st.world).1,
      { st with world := ((ctx.unwrap t).run.run st.world).2 }) := rfl
  rcases hu : (ctx.unwrap t).run.run st.world with ⟨r, w⟩
  rw [hin, hu] at hrun
  cases hrun
  obtain ⟨hg', hs, hfix⟩ := H.unwrap hg hu
  refine ⟨hg', hs, fun hsees => ?_⟩
  rw [Surroundings.resolve, hfix hsees]
  rfl

theorem reflects_remember {work : CheckM σ Verdict} {work' : CheckM Unit Verdict} (keep : Bool)
    (q : Question) (h : H.Reflects work work') :
    H.Reflects (remember keep q work) (remember keep q work') := by
  unfold remember
  refine reflects_memo.bind fun before => ?_
  cases hv : if keep then before.verdict? q else none with
  | some v => exact (reflects_onMemo _).bind fun _ => reflects_pure v
  | none =>
    cases hd : before.depth? q with
    | some depth => exact (reflects_onMemo _).bind fun _ => reflects_pure none
    | none =>
      refine (reflects_onMemo _).bind fun _ => (reflects_rethrow _ h).bind fun v => ?_
      exact (reflects_onMemo _).bind fun _ => reflects_pure v

/-- Results in a changing world, beside those in fixed surroundings. -/
def mirror (H : Hindsight ctx fixed) : Mirror ctx fixed where
  Reflects := H.Reflects
  result := reflects_pure
  fault _ := reflects_throw _
  seq h hf := h.bind hf
  resolve := reflects_resolve
  remember q _ _ h := H.memoize ▸ reflects_remember _ q h
  variance := H.variance
  objectOf := H.objectOf

end Hindsight
end ShapeCheck
