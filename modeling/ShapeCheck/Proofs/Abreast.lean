import ShapeCheck.Proofs.Fit.Mirror

/-! Computations that go the same way from states that belong together. -/

namespace ShapeCheck
variable {S S' σ τ α β : Type} {Lost : Fault → Prop}

/-- The second computation goes the way of the first, up to where the first one is lost. -/
def Abreast (Lost : Fault → Prop) (R : S → S' → Prop) (act : ExceptT Fault (StateM S) α)
    (act' : ExceptT Fault (StateM S') α) : Prop :=
  ∀ ⦃s : S⦄ ⦃s' : S'⦄, R s s' → ∀ ⦃r : Except Fault α⦄ ⦃t : S⦄, act.run.run s = (r, t) →
    (∀ e, r = .error e → ¬Lost e) → ∃ t', act'.run.run s' = (r, t') ∧ R t t'

section
variable {R : S → S' → Prop} {act : ExceptT Fault (StateM S) α}
  {act' : ExceptT Fault (StateM S') α}

theorem abreast_pure (a : α) :
    Abreast Lost R (pure a : ExceptT Fault (StateM S) α) (pure a) := by
  intro s s' hs r t hrun _
  cases hrun
  exact ⟨s', rfl, hs⟩

theorem abreast_throw (e : Fault) :
    Abreast Lost R (throw e : ExceptT Fault (StateM S) α) (throw e) := by
  intro s s' hs r t hrun _
  cases hrun
  exact ⟨s', rfl, hs⟩

theorem Abreast.bind {f : α → ExceptT Fault (StateM S) β} {f' : α → ExceptT Fault (StateM S') β}
    (h : Abreast Lost R act act') (hf : ∀ a, Abreast Lost R (f a) (f' a)) :
    Abreast Lost R (act >>= f) (act' >>= f') := by
  intro s s' hs r t hrun hr
  rw [run_bind] at hrun
  rcases hact : act.run.run s with ⟨e | a, u⟩
  · rw [hact] at hrun
    cases hrun
    obtain ⟨t', hact', ht⟩ := h hs hact (by simpa using hr)
    exact ⟨t', by rw [run_bind, hact'], ht⟩
  · rw [hact] at hrun
    obtain ⟨u', hact', hu⟩ := h hs hact (by simp)
    obtain ⟨t', hrun', ht⟩ := hf a hu hrun hr
    exact ⟨t', by rw [run_bind, hact']; exact hrun', ht⟩

theorem abreast_get_bind {k : S → ExceptT Fault (StateM S) α}
    {k' : S' → ExceptT Fault (StateM S') α}
    (h : ∀ s s', R s s' → Abreast Lost R (k s) (k' s')) :
    Abreast Lost R (get >>= k) (get >>= k') :=
  fun s s' hs _ _ hrun hr => h s s' hs hs hrun hr

theorem abreast_modify {f : S → S} {f' : S' → S'} (h : ∀ s s', R s s' → R (f s) (f' s')) :
    Abreast Lost R (modify f : ExceptT Fault (StateM S) Unit) (modify f') := by
  intro s s' hs r t hrun _
  cases hrun
  exact ⟨f' s', rfl, h s s' hs⟩

/-- A handler may put things right if it passes the fault on. -/
theorem Abreast.rethrow {f : S → S} {f' : S' → S'} (h : Abreast Lost R act act')
    (hf : ∀ s s', R s s' → R (f s) (f' s')) :
    Abreast Lost R (tryCatch act fun e => do modify f; throw e)
      (tryCatch act' fun e => do modify f'; throw e) := by
  intro s s' hs r t hrun hr
  rw [run_tryCatch] at hrun
  rcases hact : act.run.run s with ⟨e | a, u⟩
  · rw [hact] at hrun
    cases hrun
    obtain ⟨u', hact', hu⟩ := h hs hact (by simpa using hr)
    exact ⟨f' u', by rw [run_tryCatch, hact']; rfl, hf _ _ hu⟩
  · rw [hact] at hrun
    cases hrun
    obtain ⟨u', hact', hu⟩ := h hs hact (by simp)
    exact ⟨u', by rw [run_tryCatch, hact'], hu⟩

/-- Where nothing is lost, faults may be handled. -/
theorem Abreast.tryCatch {handle : Fault → ExceptT Fault (StateM S) α}
    {handle' : Fault → ExceptT Fault (StateM S') α} (hl : ∀ e, ¬Lost e)
    (h : Abreast Lost R act act') (hh : ∀ e, Abreast Lost R (handle e) (handle' e)) :
    Abreast Lost R (MonadExcept.tryCatch act handle) (MonadExcept.tryCatch act' handle') := by
  intro s s' hs r t hrun hr
  rw [run_tryCatch] at hrun
  rcases hact : act.run.run s with ⟨e | a, u⟩
  · rw [hact] at hrun
    obtain ⟨u', hact', hu⟩ := h hs hact fun e _ => hl e
    obtain ⟨t', hrun', ht⟩ := hh e hu hrun hr
    exact ⟨t', by rw [run_tryCatch, hact']; exact hrun', ht⟩
  · rw [hact] at hrun
    cases hrun
    obtain ⟨u', hact', hu⟩ := h hs hact (by simp)
    exact ⟨u', by rw [run_tryCatch, hact'], hu⟩

end

/-- Worlds that belong together, the same questions under way, and the same on record if all of it
counts. -/
structure CheckState.Alike (exact : Prop) (World : σ → τ → Prop) (st : CheckState σ)
    (st' : CheckState τ) : Prop where
  world : World st.world st'.world
  pending : st'.memo.pending = st.memo.pending
  memo : exact → st'.memo = st.memo

section
variable {exact : Prop} {World : σ → τ → Prop}

theorem Abreast.inWorld {act : ExceptT Fault (StateM σ) α} {act' : ExceptT Fault (StateM τ) α}
    (h : Abreast Lost World act act') :
    Abreast Lost (CheckState.Alike exact World) (CheckM.inWorld act) (CheckM.inWorld act') := by
  intro st st' hst r t hrun hr
  have hin : (CheckM.inWorld act).run.run st =
      ((act.run.run st.world).1, { st with world := (act.run.run st.world).2 }) := rfl
  rcases hact : act.run.run st.world with ⟨r', w⟩
  rw [hin, hact] at hrun
  cases hrun
  obtain ⟨w', hact', hw⟩ := h hst.world hact hr
  refine ⟨{ st' with world := w' }, ?_, hw, hst.pending, hst.memo⟩
  show ((act'.run.run st'.world).1, { st' with world := (act'.run.run st'.world).2 }) = _
  rw [hact']

theorem abreast_memo_bind {k : Memo → CheckM σ α} {k' : Memo → CheckM τ α}
    (h : ∀ m m' : Memo, m'.pending = m.pending → (exact → m' = m) →
      Abreast Lost (CheckState.Alike exact World) (k m) (k' m')) :
    Abreast Lost (CheckState.Alike exact World) (CheckM.memo >>= k) (CheckM.memo >>= k') :=
  fun st st' hst _ _ hrun hr => h st.memo st'.memo hst.pending hst.memo hst hrun hr

theorem alike_onMemo {f g : Memo → Memo}
    (hp : ∀ m m' : Memo, m'.pending = m.pending → (g m').pending = (f m).pending)
    (he : exact → g = f) {st : CheckState σ} {st' : CheckState τ} (h : st.Alike exact World st') :
    CheckState.Alike exact World { st with memo := f st.memo }
      { st' with memo := g st'.memo } :=
  ⟨h.world, hp _ _ h.pending, fun hx => by rw [he hx, h.memo hx]⟩

theorem abreast_onMemo {f g : Memo → Memo}
    (hp : ∀ m m' : Memo, m'.pending = m.pending → (g m').pending = (f m).pending)
    (he : exact → g = f) :
    Abreast Lost (CheckState.Alike exact World) (CheckM.onMemo f) (CheckM.onMemo g) :=
  abreast_modify fun _ _ => alike_onMemo hp he

/-- What is remembered makes no difference unless verdicts are kept. -/
theorem Abreast.remember {keep : Bool} (hk : keep → exact) (q : Question)
    {work : CheckM σ Verdict} {work' : CheckM τ Verdict}
    (h : Abreast Lost (CheckState.Alike exact World) work work') :
    Abreast Lost (CheckState.Alike exact World) (remember keep q work)
      (remember keep q work') := by
  unfold ShapeCheck.remember
  refine abreast_memo_bind fun m m' hp hm => ?_
  have hv : (if keep then m'.verdict? q else none) = if keep then m.verdict? q else none := by
    split
    · rw [hm (hk ‹_›)]
    · rfl
  have hd : m'.depth? q = m.depth? q := congrArg (Memo.depthIn q) hp
  rw [hv, hd]
  cases if keep then m.verdict? q else none with
  | some v =>
    refine (abreast_onMemo (f := Memo.hit) (g := Memo.hit) ?_ fun _ => rfl).bind fun _ =>
      abreast_pure v
    exact fun _ _ => id
  | none =>
    cases m.depth? q with
    | some depth =>
      refine (abreast_onMemo (f := .assume depth) (g := .assume depth) ?_ fun _ => rfl).bind
        fun _ => abreast_pure none
      exact fun _ _ => id
    | none =>
      refine (abreast_onMemo (f := .start q) (g := .start q) ?_ fun _ => rfl).bind fun _ => ?_
      · exact fun _ _ => congrArg (q :: ·)
      refine Abreast.bind (h.rethrow fun _ _ => alike_onMemo (f := m.abandon) (g := m'.abandon)
        (fun _ _ _ => hp) fun hx => by rw [hm hx]) fun v => ?_
      refine (abreast_onMemo (f := .settle keep m q v) (g := .settle keep m' q v) ?_ ?_).bind
        fun _ => abreast_pure v
      · exact fun _ _ _ => hp
      · exact fun hx => by rw [hm hx]

/-- Checks go the same way if references are followed the same way. -/
def abreastMirror (Lost : Fault → Prop) {ctx : Surroundings σ} {other : Surroundings τ}
    (hk : ctx.memoize → exact)
    (hu : ∀ t, Abreast Lost World (ctx.unwrap t) (other.unwrap t))
    (hv : other.variance = ctx.variance) (hm : other.memoize = ctx.memoize)
    (ho : other.objectOf = ctx.objectOf) : Mirror ctx other where
  Reflects := Abreast Lost (CheckState.Alike exact World)
  result := abreast_pure
  fault := abreast_throw
  seq := Abreast.bind
  resolve t := (hu t).inWorld
  remember q _ _ h := hm ▸ h.remember hk q
  variance := hv
  objectOf := ho

end
end ShapeCheck
