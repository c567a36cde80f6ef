import ShapeCheck.Fit.Basic
import ShapeCheck.Proofs.Settle

/-! Questions asked in turn: what their verdicts together say. -/

namespace ShapeCheck
variable {σ α : Type}

theorem Surroundings.resolve_eq {ctx : Surroundings σ} {t : Ty} (h : ctx.unwrap t = pure t) :
    ctx.resolve t = pure t := by
  rw [resolve, h]
  rfl

/-- A verdict on record is one on an equal question. -/
theorem Memo.exists_of_verdict? {m : Memo} {q : Question} {v : Verdict}
    (h : m.verdict? q = some v) :
    ∃ e ∈ m.verdicts, e.2 = v ∧ e.1.source.same q.source ∧ e.1.target.same q.target := by
  obtain ⟨e, he, rfl⟩ := Option.map_eq_some_iff.mp h
  have hsame : e.1.same q := by simpa using List.find?_some he
  simp only [Question.same, Bool.and_eq_true] at hsame
  exact ⟨e, List.mem_of_find?_eq_some he, rfl, hsame.1.2, hsame.2⟩

/-- A verdict by which `Yes` holds from then on, or `No` does. -/
def Frame.Judges (F : Frame (CheckState σ)) (act : Nat → CheckM σ Verdict) (st : CheckState σ)
    (Yes : CheckState σ → Prop) (No : Prop) : Prop :=
  F.Gives act st fun v st' => (v = none → Yes st') ∧ (v ≠ none → No)

namespace Frame
variable {F : Frame (CheckState σ)} {st : CheckState σ} {act : Nat → CheckM σ Verdict}
  {Yes Yes' : CheckState σ → Prop} {No No' : Prop}

theorem judges_yes (hi : F.Inv st) (h : Yes st) : F.Judges (fun _ => pure none) st Yes No :=
  gives_pure hi ⟨fun _ => h, fun hn => (hn rfl).elim⟩

theorem judges_no {m : Mismatch} (hi : F.Inv st) (h : No) :
    F.Judges (fun _ => pure (some m)) st Yes No :=
  gives_pure hi ⟨nofun, fun _ => h⟩

theorem Judges.imp (h : F.Judges act st Yes No) (hy : ∀ st', Yes st' → Yes' st')
    (hn : No → No') : F.Judges act st Yes' No' :=
  Gives.imp h fun _ st' _ _ hv => ⟨fun he => hy st' (hv.1 he), fun he => hn (hv.2 he)⟩

theorem Judges.gives (h : F.Judges act st Yes No) : F.Gives act st fun _ _ => True :=
  Gives.imp h fun _ _ _ _ _ => trivial

/-- What cannot be answered by no is answered by yes. -/
theorem Judges.sure (h : F.Judges act st Yes No) (hno : ¬No) :
    F.Gives act st fun v _ => v = none :=
  Gives.imp h fun _ _ _ _ hv => by_contra fun hne => hno (hv.2 hne)

theorem Judges.within (segment : Segment) (h : F.Judges act st Yes No) :
    F.Judges (fun d => CheckM.within segment (act d)) st Yes No := by
  refine Gives.map (Gives.imp h fun v st' _ _ hv => ?_)
  cases v with
  | none => exact hv
  | some m => exact ⟨nofun, fun _ => hv.2 nofun⟩

/-- The verdict decides what is done next. -/
theorem Judges.bind {β : Type} {k : Nat → Verdict → CheckM σ β} {Post : β → CheckState σ → Prop}
    (h : F.Judges act st Yes No)
    (hyes : ∀ st', F.Inv st' → F.Step st st' → Yes st' → F.Gives (fun d => k d none) st' Post)
    (hno : ∀ m st', F.Inv st' → F.Step st st' → No → F.Gives (fun d => k d (some m)) st' Post) :
    F.Gives (fun d => act d >>= k d) st Post := by
  refine Gives.bind h fun v st' hi hs hv => ?_
  cases v with
  | none => exact hyes st' hi hs (hv.1 rfl)
  | some m => exact hno m st' hi hs (hv.2 nofun)

variable {f : Nat → α → CheckM σ Verdict} {Y : α → CheckState σ → Prop} {N : α → Prop}
  {xs : List α}

theorem judges_firstMisfit (xs : List α) (hY : ∀ x, F.Stable (Y x)) (hi : F.Inv st)
    (h : ∀ x ∈ xs, ∀ st', F.Inv st' → F.Step st st' → F.Judges (fun d => f d x) st' (Y x) (N x)) :
    F.Judges (fun d => CheckM.firstMisfit (f d) xs) st (fun st' => ∀ x ∈ xs, Y x st')
      (∃ x ∈ xs, N x) := by
  induction xs generalizing st with
  | nil => exact judges_yes hi nofun
  | cons x xs ih =>
    refine (h x List.mem_cons_self st hi (F.refl st)).bind ?_ ?_
    · intro st' hi' hs hx
      have hrest := ih hi' fun y hy st'' hi'' hs' =>
        h y (List.mem_cons_of_mem x hy) st'' hi'' (F.trans hs hs')
      refine Gives.imp hrest fun v st'' _ hs' hv => ⟨fun he y hy => ?_, fun he => ?_⟩
      · rcases List.mem_cons.mp hy with rfl | hy
        · exact hY y st' st'' hs' hx
        · exact hv.1 he y hy
      · obtain ⟨y, hy, hn⟩ := hv.2 he
        exact ⟨y, List.mem_cons_of_mem x hy, hn⟩
    · exact fun m st' hi' _ hx => judges_no hi' ⟨x, List.mem_cons_self, hx⟩

theorem gives_someFits (hi : F.Inv st)
    (h : ∀ x ∈ xs, ∀ st', F.Inv st' → F.Step st st' → F.Judges (fun d => f d x) st' (Y x) (N x)) :
    F.Gives (fun d => CheckM.someFits (f d) xs) st fun b st' =>
      (b = true → ∃ x ∈ xs, Y x st') ∧ (b = false → ∀ x ∈ xs, N x) := by
  induction xs generalizing st with
  | nil => exact gives_pure hi ⟨nofun, fun _ => nofun⟩
  | cons x xs ih =>
    refine (h x List.mem_cons_self st hi (F.refl st)).bind ?_ ?_
    · exact fun st' hi' _ hx => gives_pure hi' ⟨fun _ => ⟨x, List.mem_cons_self, hx⟩, nofun⟩
    · intro m st' hi' hs hx
      have hrest := ih hi' fun y hy st'' hi'' hs' =>
        h y (List.mem_cons_of_mem x hy) st'' hi'' (F.trans hs hs')
      refine hrest.imp fun b st'' _ _ hb => ⟨fun he => ?_, fun he => ?_⟩
      · obtain ⟨y, hy, hYy⟩ := hb.1 he
        exact ⟨y, List.mem_cons_of_mem x hy, hYy⟩
      · exact List.forall_mem_cons.mpr ⟨hx, hb.2 he⟩

/-- A yes of one question is enough. -/
theorem judges_someFits {m : Mismatch} (hi : F.Inv st)
    (h : ∀ x ∈ xs, ∀ st', F.Inv st' → F.Step st st' → F.Judges (fun d => f d x) st' (Y x) (N x)) :
    F.Judges (fun d => do
      if ← CheckM.someFits (f d) xs then pure none else pure (some m)) st
      (fun st' => ∃ x ∈ xs, Y x st') (∀ x ∈ xs, N x) := by
  refine (gives_someFits hi h).bind fun b st' hi' _ hb => ?_
  cases b with
  | true => exact judges_yes hi' (hb.1 rfl)
  | false => exact judges_no hi' (hb.2 rfl)

theorem judges_bestOf (hne : xs ≠ []) (hi : F.Inv st)
    (h : ∀ x ∈ xs, ∀ st', F.Inv st' → F.Step st st' → F.Judges (fun d => f d x) st' (Y x) (N x)) :
    F.Judges (fun d => CheckM.bestOf (f d) xs) st (fun st' => ∃ x ∈ xs, Y x st')
      (∀ x ∈ xs, N x) := by
  cases xs with
  | nil => exact (hne rfl).elim
  | cons x xs =>
    refine (h x List.mem_cons_self st hi (F.refl st)).bind ?_ ?_
    · exact fun st' hi' _ hx => judges_yes hi' ⟨x, List.mem_cons_self, hx⟩
    · intro m st' hi' hs hx
      have hrest := judges_someFits (m := m) hi' fun y hy st'' hi'' hs' =>
        h y (List.mem_cons_of_mem x hy) st'' hi'' (F.trans hs hs')
      refine hrest.imp (fun st'' => ?_) fun hn => List.forall_mem_cons.mpr ⟨hx, hn⟩
      rintro ⟨y, hy, hYy⟩
      exact ⟨y, List.mem_cons_of_mem x hy, hYy⟩

/-- What is done in the world alone. -/
theorem gives_inWorld {β : Type} {act : ExceptT Fault (StateM σ) β}
    {Post : β → CheckState σ → Prop}
    (hok : ∀ a w, act.run.run st.world = (.ok a, w) → F.Inv { st with world := w } ∧
      F.Step st { st with world := w } ∧ Post a { st with world := w })
    (herr : ∀ e w, act.run.run st.world = (.error e, w) → F.Err e) :
    F.Gives (fun _ => CheckM.inWorld act) st Post := by
  have hrun : (CheckM.inWorld act).run.run st =
      ((act.run.run st.world).1, { st with world := (act.run.run st.world).2 }) := rfl
  rcases hr : act.run.run st.world with ⟨r | r, w⟩ <;> rw [hr] at hrun
  · exact ⟨0, .error r, { st with world := w }, fun _ _ => hrun, herr r w hr⟩
  · exact ⟨0, .ok r, { st with world := w }, fun _ _ => hrun, hok r w hr⟩

end Frame

/-- A question is answered by what is known, by assumption, or by work from a state in which it
is under way. -/
theorem settles_remember {Err : Fault → Prop} {keep : Bool} {q : Question}
    {work : Nat → CheckM σ Verdict} {st : CheckState σ} {Ok : Verdict → CheckState σ → Prop}
    (hknown : ∀ v, st.memo.verdict? q = some v → Ok v { st with memo := st.memo.hit })
    (hassumed : ∀ d, st.memo.depth? q = some d → Ok none { st with memo := st.memo.assume d })
    (hwork : st.memo.depth? q = none →
      Settles Err work { st with memo := st.memo.start q } fun v st' =>
        Ok v { st' with memo := Memo.settle keep st.memo q v st'.memo }) :
    Settles Err (fun d => remember keep q (work d)) st Ok := by
  unfold remember
  have hmemo : Settles Err (fun _ => CheckM.memo) st fun m s' => m = st.memo ∧ s' = st := by
    refine settles_get.bind ?_
    rintro _ _ ⟨rfl, rfl⟩
    exact settles_pure ⟨rfl, rfl⟩
  refine hmemo.bind ?_
  rintro _ st ⟨rfl, rfl⟩
  cases hv : if keep then st.memo.verdict? q else none with
  | some v =>
    have hv' : st.memo.verdict? q = some v := by
      cases keep with
      | true => exact hv
      | false => cases hv
    exact (settles_modify (hknown v hv')).bind fun _ _ h => settles_pure h
  | none =>
    cases hd : st.memo.depth? q with
    | some d => exact (settles_modify (hassumed d hd)).bind fun _ _ h => settles_pure h
    | none =>
      have hstart : Settles Err (fun _ => CheckM.onMemo (Memo.start q)) st
          fun _ s' => s' = { st with memo := st.memo.start q } := settles_modify rfl
      refine hstart.bind ?_
      rintro _ _ rfl
      refine (hwork hd).rethrow.bind fun v st' h => ?_
      exact (settles_modify h).bind fun _ _ h => settles_pure h

end ShapeCheck
