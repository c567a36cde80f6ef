import ShapeCheck.Proofs.Fit.Mirror

/-! Checks that keep no verdicts, with and without some questions under way outside of them. An
answer that rests on none of those is given without them as well. -/

namespace ShapeCheck
variable {σ α β : Type}

namespace Memo
variable {q : Question} {ps qs : List Question} {d : Nat}

theorem lt_of_depthIn (h : depthIn q ps = some d) : d < ps.length := by
  induction ps with
  | nil => cases h
  | cons p ps ih =>
    unfold depthIn at h
    split at h
    · cases h
      simp
    · have := ih h
      simp only [List.length_cons]
      omega

theorem depthIn_append_left (h : depthIn q ps = some d) (qs : List Question) :
    depthIn q (ps ++ qs) = some (d + qs.length) := by
  induction ps with
  | nil => cases h
  | cons p ps ih =>
    simp only [List.cons_append, depthIn] at h ⊢
    split at h
    · rename_i hs
      cases h
      simp [hs]
    · rename_i hs
      simp [hs, ih h]

theorem depthIn_append_right (h : depthIn q ps = none) : depthIn q (ps ++ qs) = depthIn q qs := by
  induction ps with
  | nil => rfl
  | cons p ps ih =>
    simp only [List.cons_append, depthIn] at h ⊢
    split at h
    · cases h
    · rename_i hs
      simp [hs, ih h]

end Memo

/-- Nothing is assumed at a depth below the given one. -/
def Aloof (k : Nat) (lowest : Option Nat) : Prop := ∀ d, lowest = some d → k ≤ d

theorem aloof_minDepth {k : Nat} {l m : Option Nat} :
    Aloof k (minDepth l m) ↔ Aloof k l ∧ Aloof k m := by
  cases l with
  | none => simp [minDepth, Aloof]
  | some a =>
    cases m with
    | none => simp [minDepth, Aloof]
    | some b =>
      simp only [minDepth, Aloof, Option.some.injEq, forall_eq']
      omega

theorem minDepth_map_add (l m : Option Nat) (k : Nat) :
    minDepth (l.map (· + k)) (m.map (· + k)) = (minDepth l m).map (· + k) := by
  cases l <;> cases m <;> simp [minDepth, Nat.add_min_add_right]

/-- The first state is the second one with some questions under way outside. -/
structure Atop (outer : List Question) (st st₀ : CheckState σ) : Prop where
  world : st.world = st₀.world
  pending : st.memo.pending = st₀.memo.pending ++ outer
  lowest : st.memo.lowest = st₀.memo.lowest.map (· + outer.length)

/-- Computations that come back to the questions under way that they began with. -/
structure Returns (act : CheckM σ α) : Prop where
  pending : ∀ {st st' : CheckState σ} {a : α}, act.run.run st = (.ok a, st') →
    st'.memo.pending = st.memo.pending
  lowest : ∀ {st st' : CheckState σ} {a : α} {k : Nat}, act.run.run st = (.ok a, st') →
    Aloof k st'.memo.lowest → Aloof k st.memo.lowest

/-- Results of the first computation that rest on nothing outside are results of the second one
without what is outside. -/
structure Detaches (act act' : CheckM σ α) : Prop extends Returns act where
  detach : ∀ {outer : List Question} {st st₀ st' : CheckState σ} {a : α}, Atop outer st st₀ →
    act.run.run st = (.ok a, st') → Aloof outer.length st'.memo.lowest →
    ∃ st₀', act'.run.run st₀ = (.ok a, st₀') ∧ Atop outer st' st₀'

namespace Detaches

theorem result (a : α) : Detaches (pure a : CheckM σ α) (pure a) where
  pending h := by cases h; rfl
  lowest h hk := by cases h; exact hk
  detach {_ _ st₀ _ _} h hrun _ := by
    cases hrun
    exact ⟨st₀, rfl, h⟩

theorem fault (e : Fault) : Detaches (throw e : CheckM σ α) (throw e) where
  pending h := by cases h
  lowest h _ := by cases h
  detach _ hrun _ := by cases hrun

theorem seq {act act' : CheckM σ α} {f f' : α → CheckM σ β} (h : Detaches act act')
    (hf : ∀ a, Detaches (f a) (f' a)) : Detaches (act >>= f) (act' >>= f') := by
  refine ⟨⟨fun hrun => ?_, fun hrun hk => ?_⟩, fun hst hrun hk => ?_⟩
  · obtain ⟨a, st₁, h₁, h₂⟩ := ok_of_run_bind hrun
    exact ((hf a).pending h₂).trans (h.pending h₁)
  · obtain ⟨a, st₁, h₁, h₂⟩ := ok_of_run_bind hrun
    exact h.lowest h₁ ((hf a).lowest h₂ hk)
  · obtain ⟨a, st₁, h₁, h₂⟩ := ok_of_run_bind hrun
    obtain ⟨st₁', hrun₁, hst₁⟩ := h.detach hst h₁ ((hf a).lowest h₂ hk)
    obtain ⟨st₂', hrun₂, hst₂⟩ := (hf a).detach hst₁ h₂ hk
    exact ⟨st₂', by rw [run_bind, hrun₁]; exact hrun₂, hst₂⟩

theorem resolve (ctx : Surroundings σ) (t : Ty) : Detaches (ctx.resolve t) (ctx.resolve t) := by
  have hin : ∀ st : CheckState σ, (ctx.resolve t).run.run st =
      (((ctx.unwrap t).run.run st.world).1,
        { st with world := ((ctx.unwrap t).run.run st.world).2 }) := fun _ => rfl
  refine ⟨⟨fun hrun => ?_, fun hrun hk => ?_⟩, fun {outer st st₀ st' a} hst hrun _ => ?_⟩
  · rw [hin] at hrun
    obtain ⟨-, rfl⟩ := Prod.mk.inj hrun
    rfl
  · rw [hin] at hrun
    obtain ⟨-, rfl⟩ := Prod.mk.inj hrun
    exact hk
  · rw [hin] at hrun ⊢
    rw [← hst.world]
    obtain ⟨hr, rfl⟩ := Prod.mk.inj hrun
    exact ⟨_, Prod.ext hr rfl, rfl, hst.pending, hst.lowest⟩

end Detaches

section
variable {st st' st₁ : CheckState σ} {q : Question} {work : CheckM σ Verdict} {v : Verdict}
  {d : Nat}

theorem run_remember_assumed (h : st.memo.depth? q = some d) :
    (remember false q work).run.run st = (.ok none, { st with memo := st.memo.assume d }) := by
  have hrun : (remember false q work).run.run st =
      (do CheckM.onMemo (Memo.assume d); pure none : CheckM σ Verdict).run.run st := by
    simp only [remember, Bool.false_eq_true, if_false, CheckM.memo, bind_assoc, pure_bind]
    rw [run_get_bind, h]
  rw [hrun]
  rfl

theorem run_remember_new (h : st.memo.depth? q = none) :
    (remember false q work).run.run st =
      (do
        let v ← tryCatch work fun e => do CheckM.onMemo (Memo.abandon st.memo); throw e
        CheckM.onMemo (Memo.settle false st.memo q v)
        pure v : CheckM σ Verdict).run.run { st with memo := st.memo.start q } := by
  simp only [remember, Bool.false_eq_true, if_false, CheckM.memo, bind_assoc, pure_bind]
  rw [run_get_bind, h]
  rfl

theorem run_remember_worked (h : st.memo.depth? q = none)
    (hwork : work.run.run { st with memo := st.memo.start q } = (.ok v, st₁)) :
    (remember false q work).run.run st =
      (.ok v, { st₁ with memo := Memo.settle false st.memo q v st₁.memo }) := by
  rw [run_remember_new h, run_bind, run_tryCatch, hwork]
  rfl

/-- Without kept verdicts, an answer is assumed or worked out. -/
theorem run_remember_cases (h : (remember false q work).run.run st = (.ok v, st')) :
    (∃ d, st.memo.depth? q = some d ∧ v = none ∧ st' = { st with memo := st.memo.assume d }) ∨
      st.memo.depth? q = none ∧ ∃ st₁,
        work.run.run { st with memo := st.memo.start q } = (.ok v, st₁) ∧
        st' = { st₁ with memo := Memo.settle false st.memo q v st₁.memo } := by
  cases hd : st.memo.depth? q with
  | some d =>
    rw [run_remember_assumed hd] at h
    cases h
    exact .inl ⟨d, rfl, rfl, rfl⟩
  | none =>
    rcases hwork : work.run.run { st with memo := st.memo.start q } with ⟨e | u, st₁⟩
    · rw [run_remember_new hd, run_bind, run_tryCatch, hwork] at h
      cases h
    · rw [run_remember_worked hd hwork] at h
      cases h
      exact .inr ⟨rfl, st₁, rfl, rfl⟩

end

namespace Memo

theorem lowest_settle {keep : Bool} {before m : Memo} {q : Question} {v : Verdict} :
    (settle keep before q v m).lowest =
      if reliesOutside before m then minDepth before.lowest m.lowest else before.lowest := rfl

theorem Aloof.of_settle {keep : Bool} {before m : Memo} {q : Question} {v : Verdict} {k : Nat}
    (h : Aloof k (settle keep before q v m).lowest) : Aloof k before.lowest := by
  rw [lowest_settle] at h
  split at h
  · exact (aloof_minDepth.mp h).1
  · exact h

/-- What a question rests on lies at its own depth or counts for the question outside of it. -/
theorem Aloof.inner {keep : Bool} {before m : Memo} {q : Question} {v : Verdict} {k : Nat}
    (h : Aloof k (settle keep before q v m).lowest) (hk : k ≤ before.pending.length) :
    Aloof k m.lowest := by
  rw [lowest_settle] at h
  split at h
  · exact (aloof_minDepth.mp h).2
  · rename_i hr
    intro d hd
    simp [reliesOutside, hd] at hr
    omega

end Memo

theorem Atop.relies {outer : List Question} {before before₀ st st₀ : CheckState σ}
    (hb : Atop outer before before₀) (hst : Atop outer st st₀) :
    Memo.reliesOutside before.memo st.memo = Memo.reliesOutside before₀.memo st₀.memo := by
  unfold Memo.reliesOutside
  rw [hst.lowest, hb.pending, List.length_append]
  cases st₀.memo.lowest with
  | none => rfl
  | some d => simp

theorem Detaches.remember (q : Question) {work work' : CheckM σ Verdict}
    (h : Detaches work work') :
    Detaches (ShapeCheck.remember false q work) (ShapeCheck.remember false q work') := by
  refine ⟨⟨fun hrun => ?_, fun {st st' v k} hrun hk => ?_⟩,
    fun {outer st st₀ st' v} hst hrun hk => ?_⟩
  · rcases run_remember_cases hrun with ⟨d, _, _, rfl⟩ | ⟨_, st₁, _, rfl⟩
    · rfl
    · rfl
  · rcases run_remember_cases hrun with ⟨d, _, _, rfl⟩ | ⟨_, st₁, _, rfl⟩
    · exact (aloof_minDepth.mp hk).1
    · exact Memo.Aloof.of_settle hk
  · rcases run_remember_cases hrun with ⟨d, hd, rfl, rfl⟩ | ⟨hd, st₁, hwork, rfl⟩
    · have hle : outer.length ≤ d := (aloof_minDepth.mp hk).2 d rfl
      have hinner : ∃ d₀, st₀.memo.depth? q = some d₀ ∧ d = d₀ + outer.length := by
        unfold Memo.depth? at hd ⊢
        rw [hst.pending] at hd
        cases hd₀ : Memo.depthIn q st₀.memo.pending with
        | some d₀ =>
          rw [Memo.depthIn_append_left hd₀] at hd
          exact ⟨d₀, rfl, (Option.some.inj hd).symm⟩
        | none =>
          -- the question would be one of those outside
          rw [Memo.depthIn_append_right hd₀] at hd
          have := Memo.lt_of_depthIn hd
          omega
      obtain ⟨d₀, hd₀, rfl⟩ := hinner
      refine ⟨_, run_remember_assumed hd₀, hst.world, hst.pending, ?_⟩
      have hmin := minDepth_map_add st₀.memo.lowest (some d₀) outer.length
      rwa [← hst.lowest] at hmin
    · have hd₀ : st₀.memo.depth? q = none := by
        by_contra hne
        obtain ⟨d₀, hd₀⟩ := Option.ne_none_iff_exists'.mp hne
        rw [Memo.depth?, hst.pending, Memo.depthIn_append_left hd₀] at hd
        cases hd
      have hstart : Atop outer { st with memo := st.memo.start q }
          { st₀ with memo := st₀.memo.start q } :=
        ⟨hst.world, congrArg (q :: ·) hst.pending, rfl⟩
      have hlen : outer.length ≤ st.memo.pending.length := by
        rw [hst.pending, List.length_append]
        omega
      obtain ⟨st₁', hrun₁, hst₁⟩ := h.detach hstart hwork (Memo.Aloof.inner hk hlen)
      refine ⟨_, run_remember_worked hd₀ hrun₁, hst₁.world, hst.pending, ?_⟩
      simp only [Memo.lowest_settle, hst.relies hst₁, hst.lowest, hst₁.lowest, minDepth_map_add]
      split
      · rfl
      · rfl

/-- Results without kept verdicts, beside those without the questions outside. -/
def detachMirror (ctx : Surroundings σ) (hm : ctx.memoize = false) : Mirror ctx ctx where
  Reflects := Detaches
  result := .result
  fault := .fault
  seq := .seq
  resolve := .resolve ctx
  remember q _ _ h := hm ▸ h.remember q
  variance := rfl
  objectOf := rfl

end ShapeCheck
