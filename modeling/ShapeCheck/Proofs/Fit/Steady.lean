import ShapeCheck.Proofs.Fit.Descent
import ShapeCheck.Proofs.Fit.Detach

/-! A checker that keeps no verdicts answers a question about types without references in the same
way whenever it is asked, also while other questions are under way. So its answers make up a
relation, and the rules say what that relation is like. -/

namespace ShapeCheck
variable {σ α β : Type}

/-- From some depth on the computation has this result. -/
def Yields (act : Nat → CheckM σ α) (st : CheckState σ) (a : α) : Prop :=
  ∃ bound, ∀ d, bound ≤ d → ∃ st', (act d).run.run st = (.ok a, st')

theorem Settles.of_yields {Err : Fault → Prop} {act : Nat → CheckM σ α} {st : CheckState σ}
    {Ok : α → CheckState σ → Prop} {a : α} (h : Settles Err act st Ok) (hy : Yields act st a) :
    ∃ st', Ok a st' := by
  obtain ⟨bound, r, st', hrun, hr⟩ := h
  obtain ⟨bound', hrun'⟩ := hy
  obtain ⟨st'', hrun'⟩ := hrun' (max bound bound') (by omega)
  cases (hrun _ (Nat.le_max_left bound bound')).symm.trans hrun'
  exact ⟨st', hr⟩

/-- A result of two steps comes from a result of the first. -/
theorem Settles.bind_yields {Err : Fault → Prop} {act : Nat → CheckM σ α}
    {f : Nat → α → CheckM σ β} {st : CheckState σ} {Ok : α → CheckState σ → Prop} {b : β}
    (h : Settles Err act st Ok) (hy : Yields (fun d => act d >>= f d) st b) :
    ∃ a st', Ok a st' ∧ Yields act st a ∧ Yields (fun d => f d a) st' b := by
  obtain ⟨bound, r, st₁, hrun, hr⟩ := h
  obtain ⟨bound', hrun'⟩ := hy
  have hsteps : ∀ d, max bound bound' ≤ d → ∃ a st', r = .ok a ∧
      (f d a).run.run st₁ = (.ok b, st') := by
    intro d hd
    obtain ⟨st', hb⟩ := hrun' d (by omega)
    obtain ⟨a, st₂, hact, hf⟩ := ok_of_run_bind hb
    cases (hrun d (by omega)).symm.trans hact
    exact ⟨a, st', rfl, hf⟩
  obtain ⟨a, _, rfl, _⟩ := hsteps _ le_rfl
  refine ⟨a, st₁, hr, ⟨bound, fun d hd => ⟨st₁, hrun d hd⟩⟩, max bound bound', fun d hd => ?_⟩
  obtain ⟨_, st', ⟨⟩, hf⟩ := hsteps d hd
  exact ⟨st', hf⟩

theorem yields_pure_iff {st : CheckState σ} {a b : α} : Yields (fun _ => pure a) st b ↔ a = b := by
  constructor
  · rintro ⟨bound, hrun⟩
    obtain ⟨st', hrun⟩ := hrun bound le_rfl
    cases hrun
    rfl
  · rintro rfl
    exact ⟨0, fun _ _ => ⟨st, rfl⟩⟩

theorem Frame.Judges.of_yields {F : Frame (CheckState σ)} {act : Nat → CheckM σ Verdict}
    {st : CheckState σ} {v : Verdict} {Y N : Prop} (h : F.Judges act st (fun _ => Y) N)
    (hy : Yields act st v) : (v = none → Y) ∧ (v ≠ none → N) := by
  obtain ⟨_, _, _, hv⟩ := Settles.of_yields h hy
  exact hv

/-- The result that a fresh checker comes to. -/
abbrev Gets (world : σ) (act : Nat → CheckM σ α) (a : α) : Prop := Yields act ⟨Memo.empty, world⟩ a

theorem Yields.unique {act : Nat → CheckM σ α} {st : CheckState σ} {a b : α}
    (ha : Yields act st a) (hb : Yields act st b) : a = b := by
  obtain ⟨bound, ha⟩ := ha
  obtain ⟨bound', hb⟩ := hb
  obtain ⟨st₁, ha⟩ := ha (max bound bound') (by omega)
  obtain ⟨st₂, hb⟩ := hb (max bound bound') (by omega)
  cases ha.symm.trans hb
  rfl

theorem Ty.eq_of_objectOf {fs : List (Field Ty)} {i : Option (Index Ty)} {name : Option String}
    {t : Ty} (h : Ty.objectOf fs i name = .ok t) : t = .object fs i name := by
  unfold Ty.objectOf objectBy at h
  dsimp only at h
  split at h
  · cases h
  split at h
  · cases h
    rfl
  split at h
  · cases h
    rfl
  split at h
  · cases h
    rfl
  · cases h

section
variable {Err : Fault → Prop} {Rec : Question × Verdict → Prop} {world : σ} {n : ℕ ×ₗ ℕ}
  {st : CheckState σ}
  {act : Nat → CheckM σ α} {Post : α → CheckState σ → Prop}

/-- A result while other questions are under way is what a fresh checker comes to. -/
theorem Frame.Gives.gets (h : (descentFrame Err Rec world n).Gives act st Post)
    (hi : st.Above Rec world n) (hd : ∀ d, Detaches (act d) (act d)) :
    (descentFrame Err Rec world n).Gives act st fun a st' => Post a st' ∧ Gets world act a := by
  obtain ⟨bound, r, st', hrun, hr⟩ := h
  refine ⟨bound, r, st', hrun, ?_⟩
  cases r with
  | error e => exact hr
  | ok a =>
    obtain ⟨hi', hstep, hpost⟩ := hr
    refine ⟨hi', hstep, hpost, bound, fun d hd' => ?_⟩
    have hatop : Atop st.memo.pending st ⟨Memo.empty, world⟩ := ⟨hi.world, rfl, hi.lowest⟩
    have haloof : Aloof st.memo.pending.length st'.memo.lowest := by
      intro k hk
      rw [hi'.lowest] at hk
      cases hk
    obtain ⟨st₀, hrun₀, _⟩ := (hd d).detach hatop (hrun d hd') haloof
    exact ⟨st₀, hrun₀⟩

/-- With nothing under way a checker comes to the result of a fresh one. -/
theorem Yields.gives {a : α} (hg : Gets world act a)
    (h : (descentFrame Err Rec world n).Gives act st Post) (hi : st.Above Rec world n)
    (hp : st.memo.pending = []) (hd : ∀ d, Detaches (act d) (act d)) :
    (descentFrame (fun _ => False) Rec world n).Gives act st
      fun a' st' => a' = a ∧ Post a' st' := by
  obtain ⟨bound, r, st', hrun, hr⟩ := h
  obtain ⟨bound', hfresh⟩ := hg
  obtain ⟨st₀, hfresh⟩ := hfresh (max bound bound') (by omega)
  have hatop : Atop [] ⟨Memo.empty, world⟩ st := by
    refine ⟨hi.world.symm, ?_, ?_⟩
    · rw [hp]
      rfl
    · rw [hi.lowest]
      rfl
  obtain ⟨st₁, hrun', -⟩ := (hd _).detach hatop hfresh fun _ _ => Nat.zero_le _
  cases (hrun _ (Nat.le_max_left _ _)).symm.trans hrun'
  exact ⟨bound, .ok a, st', hrun, hr.1, hr.2.1, rfl, hr.2.2⟩

end

section
variable (ctx : Surroundings σ) (world : σ)

/-- A fresh checker says that the source fits the target. -/
def Goes (s t : Ty) : Prop := Gets world (fun d => check ctx d s t) none

/-- A fresh checker says that the source does not fit the target. -/
def Fails (s t : Ty) : Prop := ∃ m, Gets world (fun d => check ctx d s t) (some m)

/-- A fresh checker finds these properties, or none if the type has none at all. -/
def Offers (t : Ty) (r : Option (List (Field Ty))) : Prop :=
  Gets world (fun d => Member.fieldsOf ctx (check ctx d) d t) r

/-- Surroundings that keep no verdicts, and types without references. -/
structure Steady (φ : Features) : Prop where
  level : ctx.Level
  bare : φ.Bare
  forgets : ctx.memoize = false

end

section
variable {ctx : Surroundings σ} {world : σ} {φ : Features} {n : ℕ ×ₗ ℕ} {st : CheckState σ}
  {s t : Ty} {ms : List Ty}

theorem Goes.not_fails (h : Goes ctx world s t) : ¬Fails ctx world s t := by
  rintro ⟨m, hm⟩
  cases h.unique hm

namespace Steady

theorem detaches_check (h : Steady ctx φ) (d : Nat) (s t : Ty) :
    Detaches (check ctx d s t) (check ctx d s t) :=
  (detachMirror ctx h.forgets).reflects_check d s t

theorem detaches_fieldsOf (h : Steady ctx φ) (d k : Nat) (t : Ty) :
    Detaches (Member.fieldsOf ctx (check ctx d) k t) (Member.fieldsOf ctx (check ctx d) k t) :=
  (detachMirror ctx h.forgets).reflects_fieldsOf (h.detaches_check d) k t

/-- Every question is answered as by a fresh checker. -/
theorem answered (h : Steady ctx φ) (world : σ) (n : ℕ ×ₗ ℕ) :
    Answered ctx φ (fun _ => True) world n (Goes ctx world) (Fails ctx world) where
  judged {st a b} hi ha hb hr := by
    have hends := descent_check h.level h.bare hi ha hb hr
    refine (hends.gets hi fun d => h.detaches_check d a b).imp ?_
    rintro v _ - - ⟨-, hv⟩
    cases v with
    | none => exact ⟨fun _ => hv, fun hne => (hne rfl).elim⟩
    | some m => exact ⟨fun he => (by cases he), fun _ => ⟨m, hv⟩⟩

/-- An answer of a fresh checker is immediate or was worked out. -/
theorem cases_of_gets (h : Steady ctx φ) (hs : Ty.Within φ s) (ht : Ty.Within φ t) {v : Verdict}
    (hv : Gets world (fun d => check ctx d s t) v) :
    Rule.immediate s t = some v ∨ Inquiry.Undecided s t ∧ ∃ st : CheckState σ,
      st.Above (fun _ => True) world (Ty.rank s t) ∧
      Yields (fun d => Rule.structural ctx (check ctx d) d s t) st v := by
  obtain ⟨bound, hrun⟩ := hv
  have hanswer : ∀ d, check ctx (d + 1) s t = Rule.answer ctx (check ctx d) d s t := fun _ => rfl
  simp only [Rule.answer, h.level.resolve h.bare hs, h.level.resolve h.bare ht, pure_bind,
    h.forgets] at hanswer
  cases himm : Rule.immediate s t with
  | some u =>
    obtain ⟨st', hrun⟩ := hrun (bound + 1) (by omega)
    simp only [hanswer, himm] at hrun
    cases hrun
    exact .inl rfl
  | none =>
    obtain ⟨n, hn⟩ := exists_gt (Ty.rank s t)
    refine .inr ⟨Inquiry.undecided_of_immediate himm, _,
      (fresh_above _ world n).began (q := ⟨s, t⟩) hs.proper ht.proper hn, bound, fun d hd => ?_⟩
    obtain ⟨st', hrun⟩ := hrun (d + 1) (by omega)
    simp only [hanswer, himm] at hrun
    rcases run_remember_cases hrun with ⟨_, hd, _⟩ | ⟨_, st₁, hwork, _⟩
    · cases hd
    · exact ⟨st₁, hwork⟩

/-- A union fits what all of its members fit. -/
theorem goes_union (h : Steady ctx φ) (hs : Ty.Within φ (.union ms)) (ht : Ty.Within φ t)
    (hg : Goes ctx world (.union ms) t) :
    (Ty.union ms).same t ∨ t = Ty.any ∨ ∀ m ∈ ms, Goes ctx world m t := by
  rcases h.cases_of_gets hs ht hg with himm | ⟨_, st, hi, hy⟩
  · have hfits : (Reading.asIs ctx.variance).FitsBy (fun _ _ => False) (.union ms) t :=
      Inquiry.immediate_fits himm
    cases hfits with
    | equal he => exact .inl he
    | toAny => exact .inr (.inl rfl)
    | fromUnion _ hm => exact .inr (.inr fun m hmem => (hm m hmem).elim)
    | toUnion hu => exact (hu ms rfl).elim
  · exact .inr (.inr ((((h.answered world _).fromUnion hi hs ht).of_yields hy).1 rfl))

theorem fails_union (h : Steady ctx φ) (hs : Ty.Within φ (.union ms)) (ht : Ty.Within φ t)
    (hf : Fails ctx world (.union ms) t) : t = Ty.never ∨ ∃ m ∈ ms, Fails ctx world m t := by
  obtain ⟨found, hf⟩ := hf
  rcases h.cases_of_gets hs ht hf with himm | ⟨_, st, hi, hy⟩
  · have hunfit : ¬(Reading.asIs ctx.variance).FitsBy (fun _ _ => True) (.union ms) t :=
      Inquiry.immediate_unfit himm
    by_contra hne
    rw [not_or] at hne
    exact hunfit (.fromUnion hne.1 fun _ _ => trivial)
  · exact .inr ((((h.answered world _).fromUnion hi hs ht).of_yields hy).2 (by simp))

/-- What does not fit a union fits none of its members. -/
theorem fails_toUnion (h : Steady ctx φ) (hs : Ty.Within φ s) (ht : Ty.Within φ (.union ms))
    (hu : ∀ us, s ≠ .union us) (hf : Fails ctx world s (.union ms)) :
    ∀ m ∈ ms, Fails ctx world s m := by
  obtain ⟨found, hf⟩ := hf
  rcases h.cases_of_gets hs ht hf with himm | ⟨_, st, hi, hy⟩
  · have hunfit : ¬(Reading.asIs ctx.variance).FitsBy (fun _ _ => True) s (.union ms) :=
      Inquiry.immediate_unfit himm
    exact fun m hm => (hunfit (.toUnion hu hm trivial)).elim
  · exact (((h.answered world _).toUnion hi hs ht hu).of_yields hy).2 (by simp)

/-- What no rule applies to outright may fail. -/
theorem undecided_of_fails (h : Steady ctx φ) (hs : Ty.Within φ s) (ht : Ty.Within φ t)
    (hf : Fails ctx world s t) :
    Inquiry.Undecided s t ∨ ∀ R, ¬(Reading.asIs ctx.variance).FitsBy R s t := by
  obtain ⟨found, hf⟩ := hf
  rcases h.cases_of_gets hs ht hf with himm | ⟨hu, _⟩
  · exact .inr fun R => Inquiry.immediate_unfit himm
  · exact .inl hu

/-- Where neither type is a union or an intersection, their parts fit. -/
theorem goes_plain (h : Steady ctx φ) (hs : Ty.Within φ s) (ht : Ty.Within φ t)
    (hsb : s.isBlend = false) (htb : t.isBlend = false) (hg : Goes ctx world s t) :
    (Reading.asIs ctx.variance).FitsBy (Goes ctx world) s t := by
  rcases h.cases_of_gets hs ht hg with himm | ⟨hu, st, hi, hy⟩
  · exact Inquiry.immediate_fits himm
  · have hplain := (h.answered world _).plain h.level h.bare hi hs ht hu hsb htb
    exact (hplain.of_yields hy).1 rfl

/-- The properties of a type are found as by a fresh checker. -/
theorem gives_fieldsOf (h : Steady ctx φ) (hi : st.Above (fun _ => True) world (Ty.rank s t))
    (hs : Ty.Within φ s) :
    (descentFrame φ.Err (fun _ => True) world (Ty.rank s t)).Gives
      (fun d => Member.fieldsOf ctx (check ctx d) d s) st fun r _ => Offers ctx world s r := by
  have hfound := descent_found ((h.answered world (Ty.rank s t)).answers h.level h.bare st) hs 0
  have hf := hfound.fields hi rfl ⟨hs, le_rfl⟩
  exact (Frame.Gives.gets hf hi fun d => h.detaches_fieldsOf d d s).imp fun _ _ _ _ hr => hr.2

theorem combined_of_yields (h : Steady ctx φ) (hi : st.Above (fun _ => True) world (Ty.rank s t))
    (hs : Ty.Within φ s) {r : Option Ty}
    (hy : Yields (fun d => Member.combinedObject ctx (check ctx d) d s) st r) :
    r = none ∧ Offers ctx world s none ∨
      ∃ fs i, r = some (.object fs i none) ∧ Offers ctx world s (some fs) := by
  obtain ⟨a, st₁, ⟨_, _, ha⟩, _, hy⟩ := Settles.bind_yields (h.gives_fieldsOf hi hs) hy
  cases a with
  | none => exact .inl ⟨(yields_pure_iff.mp hy).symm, ha⟩
  | some fs =>
    obtain ⟨bound, hrun⟩ := hy
    obtain ⟨st', hrun⟩ := hrun bound le_rfl
    obtain ⟨_, _, _, hrun⟩ := ok_of_run_bind hrun
    obtain ⟨i, _, _, hrun⟩ := ok_of_run_bind hrun
    obtain ⟨shape, _, hshape, hrun⟩ := ok_of_run_bind hrun
    rw [h.level.objectOf] at hshape
    cases hrun
    refine .inr ⟨fs, i, ?_, ha⟩
    cases ho : Ty.objectOf fs i none with
    | error e =>
      rw [ho] at hshape
      cases hshape
    | ok o =>
      rw [ho] at hshape
      cases hshape
      rw [Ty.eq_of_objectOf ho]

/-- An intersection fits an object by what its members offer together, or if they offer nothing by
one of them. -/
theorem goes_inter (h : Steady ctx φ) (hs : Ty.Within φ (.inter ms)) {gs : List (Field Ty)}
    {wanted : Option (Index Ty)} {name : Option String} (ht : Ty.Within φ (.object gs wanted name))
    (hg : Goes ctx world (.inter ms) (.object gs wanted name)) :
    (∃ fs i, Offers ctx world (.inter ms) (some fs) ∧ Ty.Within φ (.object fs i none) ∧
        Goes ctx world (.object fs i none) (.object gs wanted name)) ∨
      Offers ctx world (.inter ms) none ∧ ∃ m ∈ ms, Goes ctx world m (.object gs wanted name) := by
  rcases h.cases_of_gets hs ht hg with himm | ⟨_, st, hi, hy⟩
  · have hfits : (Reading.asIs ctx.variance).FitsBy (fun _ _ => False) (.inter ms)
        (.object gs wanted name) := Inquiry.immediate_fits himm
    cases hfits with
    | equal he => simp [Ty.same] at he
  · have ha := h.answered world (Ty.rank (.inter ms) (.object gs wanted name))
    obtain ⟨r, st₁, ⟨hi₁, _, hr⟩, hyr, hy⟩ :=
      Settles.bind_yields (ha.combinedObject h.level h.bare hi hs) hy
    rcases h.combined_of_yields hi hs hyr with ⟨rfl, hnone⟩ | ⟨fs, i, rfl, hsome⟩
    · exact .inr ⟨hnone, ((ha.fromSome hi₁ hs ht).of_yields hy).1 rfl⟩
    · obtain ⟨hshape, hrank⟩ := hr _ rfl
      obtain ⟨v, _, ⟨_, _, hv⟩, _, hy⟩ := Settles.bind_yields (ha.judged hi₁ hshape ht hrank) hy
      cases v with
      | none => exact .inl ⟨fs, i, hsome, hshape, hv.1 rfl⟩
      | some m => cases yields_pure_iff.mp hy

end Steady
end
end ShapeCheck
