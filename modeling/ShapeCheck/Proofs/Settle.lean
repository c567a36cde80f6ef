import Mathlib.Data.List.Forall2
import ShapeCheck.Fault

/-! Computations given a depth that come to the same end at every depth that is large enough. -/

namespace ShapeCheck
variable {S α β : Type}

theorem run_bind (act : ExceptT Fault (StateM S) α) (f : α → ExceptT Fault (StateM S) β) (s : S) :
    (act >>= f).run.run s =
      match act.run.run s with
      | (.ok a, s') => (f a).run.run s'
      | (.error e, s') => (.error e, s') := by
  rw [ExceptT.run_bind, StateT.run_bind]
  rcases act.run.run s with ⟨r | r, s'⟩ <;> rfl

/-- A result of two steps comes from a result of the first. -/
theorem ok_of_run_bind {act : ExceptT Fault (StateM S) α} {f : α → ExceptT Fault (StateM S) β}
    {s s' : S} {b : β} (h : (act >>= f).run.run s = (.ok b, s')) :
    ∃ a s₁, act.run.run s = (.ok a, s₁) ∧ (f a).run.run s₁ = (.ok b, s') := by
  rw [run_bind] at h
  rcases hact : act.run.run s with ⟨e | a, s₁⟩
  · rw [hact] at h
    cases h
  · rw [hact] at h
    exact ⟨a, s₁, rfl, h⟩

theorem run_get_bind (k : S → ExceptT Fault (StateM S) α) (s : S) :
    (get >>= k).run.run s = (k s).run.run s := rfl

theorem run_tryCatch (act : ExceptT Fault (StateM S) α)
    (handle : Fault → ExceptT Fault (StateM S) α) (s : S) :
    (tryCatch act handle).run.run s =
      match act.run.run s with
      | (.ok a, s') => (.ok a, s')
      | (.error e, s') => (handle e).run.run s' := by
  simp only [tryCatch, tryCatchThe, MonadExceptOf.tryCatch, ExceptT.tryCatch]
  rw [ExceptT.run_mk, StateT.run_bind]
  rcases h : act.run.run s with ⟨r | r, s'⟩ <;> rw [show StateT.run act s = _ from h] <;> rfl

/-- From some depth on the computation has one outcome, a result that is as required or a fault
that is allowed for. -/
def Settles (Err : Fault → Prop) (act : Nat → ExceptT Fault (StateM S) α) (s : S)
    (Ok : α → S → Prop) : Prop :=
  ∃ bound r s', (∀ d, bound ≤ d → (act d).run.run s = (r, s')) ∧
    match r with
    | .ok a => Ok a s'
    | .error e => Err e

/-- From some depth on the computation comes to this result and leaves this state. -/
def ComesTo (act : Nat → ExceptT Fault (StateM S) α) (s : S) (a : α) (s' : S) : Prop :=
  ∃ bound, ∀ d, bound ≤ d → (act d).run.run s = (.ok a, s')

section
variable {Err : Fault → Prop} {act act' : Nat → ExceptT Fault (StateM S) α} {s : S}
  {Ok Ok' : α → S → Prop}

theorem settles_pure {a : α} (h : Ok a s) : Settles Err (fun _ => pure a) s Ok :=
  ⟨0, .ok a, s, fun _ _ => rfl, h⟩

theorem settles_throw {e : Fault} (h : Err e) :
    Settles Err (fun _ => (throw e : ExceptT Fault (StateM S) α)) s Ok :=
  ⟨0, .error e, s, fun _ _ => rfl, h⟩

theorem settles_modify {f : S → S} {Ok : Unit → S → Prop} (h : Ok () (f s)) :
    Settles Err (fun _ => (modify f : ExceptT Fault (StateM S) Unit)) s Ok :=
  ⟨0, .ok (), f s, fun _ _ => rfl, h⟩

theorem settles_get : Settles Err (fun _ => (get : ExceptT Fault (StateM S) S)) s
    fun a s' => a = s ∧ s' = s :=
  ⟨0, .ok s, s, fun _ _ => rfl, rfl, rfl⟩

namespace Settles

theorem imp (h : Settles Err act s Ok) (hi : ∀ a s', Ok a s' → Ok' a s') :
    Settles Err act s Ok' := by
  obtain ⟨bound, r, s', hrun, hr⟩ := h
  refine ⟨bound, r, s', hrun, ?_⟩
  cases r with
  | ok a => exact hi a s' hr
  | error e => exact hr

theorem comesTo (h : Settles Err act s Ok) :
    Settles Err act s fun a s' => Ok a s' ∧ ComesTo act s a s' := by
  obtain ⟨bound, r, s', hrun, hr⟩ := h
  refine ⟨bound, r, s', hrun, ?_⟩
  cases r with
  | ok a => exact ⟨hr, bound, hrun⟩
  | error e => exact hr

/-- What is known of one outcome on two grounds. -/
theorem and {Err' : Fault → Prop} (h : Settles Err act s Ok) (h' : Settles Err' act s Ok') :
    Settles Err act s fun a s' => Ok a s' ∧ Ok' a s' := by
  obtain ⟨bound, r, s₁, hrun, hr⟩ := h
  obtain ⟨bound', r', s₂, hrun', hr'⟩ := h'
  have heq := (hrun (max bound bound') (by omega)).symm.trans (hrun' _ (by omega))
  obtain ⟨rfl, rfl⟩ := Prod.mk.inj heq
  refine ⟨bound, r, s₁, hrun, ?_⟩
  cases r with
  | ok a => exact ⟨hr, hr'⟩
  | error e => exact hr

/-- An outcome is a result if no fault is allowed for on both of two grounds. -/
theorem exists_comesTo {Err' : Fault → Prop} (h : Settles Err act s Ok)
    (h' : Settles Err' act s Ok') (hno : ∀ e, Err e → ¬Err' e) :
    ∃ a s', Ok a s' ∧ ComesTo act s a s' := by
  obtain ⟨bound, r, s₁, hrun, hr⟩ := h
  obtain ⟨bound', r', s₂, hrun', hr'⟩ := h'
  have heq := (hrun (max bound bound') (by omega)).symm.trans (hrun' _ (by omega))
  obtain ⟨rfl, rfl⟩ := Prod.mk.inj heq
  cases r with
  | ok a => exact ⟨a, s₁, hr, bound, hrun⟩
  | error e => exact (hno e hr hr').elim

theorem bind {f : Nat → α → ExceptT Fault (StateM S) β} {Ok' : β → S → Prop}
    (h : Settles Err act s Ok) (hf : ∀ a s', Ok a s' → Settles Err (fun d => f d a) s' Ok') :
    Settles Err (fun d => act d >>= f d) s Ok' := by
  obtain ⟨bound, r, s', hrun, hr⟩ := h
  cases r with
  | error e =>
    refine ⟨bound, .error e, s', fun d hd => ?_, hr⟩
    rw [run_bind, hrun d hd]
  | ok a =>
    obtain ⟨bound', r', s'', hrun', hr'⟩ := hf a s' hr
    refine ⟨max bound bound', r', s'', fun d hd => ?_, hr'⟩
    rw [run_bind, hrun d (by omega)]
    exact hrun' d (by omega)

theorem modify_bind {f : S → S} {k : Nat → Unit → ExceptT Fault (StateM S) α}
    (h : Settles Err (fun d => k d ()) (f s) Ok) :
    Settles Err (fun d => modify f >>= k d) s Ok := by
  obtain ⟨bound, r, s', hrun, hr⟩ := h
  exact ⟨bound, r, s', hrun, hr⟩

theorem get_bind {k : Nat → S → ExceptT Fault (StateM S) α}
    (h : Settles Err (fun d => k d s) s Ok) : Settles Err (fun d => get >>= k d) s Ok := by
  obtain ⟨bound, r, s', hrun, hr⟩ := h
  exact ⟨bound, r, s', hrun, hr⟩

theorem map {f : α → β} {Ok : β → S → Prop} (h : Settles Err act s fun a s' => Ok (f a) s') :
    Settles Err (fun d => f <$> act d) s Ok := by
  have hb := h.bind fun _ _ ha => settles_pure ha
  simpa only [bind_pure_comp] using hb

/-- Families that agree from some depth on settle alike. -/
theorem congr {bound : Nat} (hc : ∀ d, bound ≤ d → act' d = act d) (h : Settles Err act s Ok) :
    Settles Err act' s Ok := by
  obtain ⟨bound', r, s', hrun, hr⟩ := h
  refine ⟨max bound bound', r, s', fun d hd => ?_, hr⟩
  rw [hc d (by omega)]
  exact hrun d (by omega)

/-- Only runs from where the computation begins count. -/
theorem rerun (hr : ∀ d, (act' d).run.run s = (act d).run.run s) (h : Settles Err act s Ok) :
    Settles Err act' s Ok := by
  obtain ⟨bound, r, s', hrun, hres⟩ := h
  exact ⟨bound, r, s', fun d hd => (hr d).trans (hrun d hd), hres⟩

theorem succ (hc : ∀ d, act' (d + 1) = act d) (h : Settles Err act s Ok) :
    Settles Err act' s Ok := by
  obtain ⟨bound, r, s', hrun, hr⟩ := h
  refine ⟨bound + 1, r, s', fun d hd => ?_, hr⟩
  obtain ⟨n, rfl⟩ : ∃ n, d = n + 1 := ⟨d - 1, by omega⟩
  rw [hc n]
  exact hrun n (by omega)

theorem of_run {act : ExceptT Fault (StateM S) α} {s' : S} {a : α}
    (h : Settles Err (fun _ => act) s Ok) (hrun : act.run.run s = (.ok a, s')) : Ok a s' := by
  obtain ⟨bound, r, s'', hr, hok⟩ := h
  cases (hr bound (Nat.le_refl _)).symm.trans hrun
  exact hok

theorem of_error {act : ExceptT Fault (StateM S) α} {s' : S} {e : Fault}
    (h : Settles Err (fun _ => act) s Ok) (hrun : act.run.run s = (.error e, s')) : Err e := by
  obtain ⟨bound, r, s'', hr, herr⟩ := h
  cases (hr bound (Nat.le_refl _)).symm.trans hrun
  exact herr

/-- A handler may put things right if it passes the fault on. -/
theorem rethrow {f : S → S} (h : Settles Err act s Ok) :
    Settles Err (fun d => tryCatch (act d) fun e => do modify f; throw e) s Ok := by
  obtain ⟨bound, r, s', hrun, hr⟩ := h
  cases r with
  | ok a =>
    refine ⟨bound, .ok a, s', fun d hd => ?_, hr⟩
    rw [run_tryCatch, hrun d hd]
  | error e =>
    refine ⟨bound, .error e, f s', fun d hd => ?_, hr⟩
    rw [run_tryCatch, hrun d hd]
    rfl

end Settles
end

/-- What every computation of some kind keeps to: the faults it may stop at, an invariant of its
state, and how the state may change. -/
structure Frame (S : Type) where
  Err : Fault → Prop
  Inv : S → Prop
  Step : S → S → Prop
  refl : ∀ s, Step s s
  trans : ∀ {a b c : S}, Step a b → Step b c → Step a c

namespace Frame
variable (F : Frame S)

/-- The computation settles within the frame, with a result that is as required. -/
def Gives (act : Nat → ExceptT Fault (StateM S) α) (s : S) (Post : α → S → Prop) : Prop :=
  Settles F.Err act s fun a s' => F.Inv s' ∧ F.Step s s' ∧ Post a s'

/-- What is known of a state stays known. -/
def Stable (p : S → Prop) : Prop := ∀ s s', F.Step s s' → p s → p s'

variable {F} {act : Nat → ExceptT Fault (StateM S) α} {s : S} {Post Post' : α → S → Prop}

theorem gives_pure {a : α} (hi : F.Inv s) (h : Post a s) : F.Gives (fun _ => pure a) s Post :=
  settles_pure ⟨hi, F.refl s, h⟩

theorem gives_throw {e : Fault} (h : F.Err e) :
    F.Gives (fun _ => (throw e : ExceptT Fault (StateM S) α)) s Post := settles_throw h

theorem gives_modify {f : S → S} {Post : Unit → S → Prop} (hi : F.Inv (f s)) (hs : F.Step s (f s))
    (h : Post () (f s)) : F.Gives (fun _ => modify f) s Post := settles_modify ⟨hi, hs, h⟩

namespace Gives

theorem imp (h : F.Gives act s Post)
    (hp : ∀ a s', F.Inv s' → F.Step s s' → Post a s' → Post' a s') : F.Gives act s Post' :=
  Settles.imp h fun a s' ⟨hi, hs, hpost⟩ => ⟨hi, hs, hp a s' hi hs hpost⟩

theorem comesTo (h : F.Gives act s Post) :
    F.Gives act s fun a s' => Post a s' ∧ ComesTo act s a s' :=
  Settles.imp (Settles.comesTo h) fun _ _ ⟨⟨hi, hs, hpost⟩, hc⟩ => ⟨hi, hs, hpost, hc⟩

theorem bind {f : Nat → α → ExceptT Fault (StateM S) β} {Post' : β → S → Prop}
    (h : F.Gives act s Post)
    (hf : ∀ a s', F.Inv s' → F.Step s s' → Post a s' → F.Gives (fun d => f d a) s' Post') :
    F.Gives (fun d => act d >>= f d) s Post' := by
  refine Settles.bind h fun a s' ⟨hi, hs, hpost⟩ => ?_
  exact Settles.imp (hf a s' hi hs hpost) fun b s'' ⟨hi', hs', hpost'⟩ =>
    ⟨hi', F.trans hs hs', hpost'⟩

theorem modify_bind {f : S → S} {k : Nat → Unit → ExceptT Fault (StateM S) α}
    (hs : F.Step s (f s)) (h : F.Gives (fun d => k d ()) (f s) Post) :
    F.Gives (fun d => modify f >>= k d) s Post := by
  refine Settles.modify_bind (Settles.imp h ?_)
  rintro a s' ⟨hi, hs', hpost⟩
  exact ⟨hi, F.trans hs hs', hpost⟩

theorem get_bind {k : Nat → S → ExceptT Fault (StateM S) α}
    (h : F.Gives (fun d => k d s) s Post) : F.Gives (fun d => get >>= k d) s Post :=
  Settles.get_bind h

theorem map {f : α → β} {Post : β → S → Prop} (h : F.Gives act s fun a s' => Post (f a) s') :
    F.Gives (fun d => f <$> act d) s Post := Settles.map h

end Gives

/-- The same is done with each item, in turn. -/
theorem gives_mapM {f : Nat → α → ExceptT Fault (StateM S) β} {Post : α → β → S → Prop}
    (xs : List α) (hp : ∀ a b, F.Stable (Post a b)) (hi : F.Inv s)
    (h : ∀ x ∈ xs, ∀ s', F.Inv s' → F.Step s s' → F.Gives (fun d => f d x) s' (Post x)) :
    F.Gives (fun d => xs.mapM (f d)) s fun ys s' => List.Forall₂ (Post · · s') xs ys := by
  simp only [← List.mapM'_eq_mapM]
  induction xs generalizing s with
  | nil => exact gives_pure hi .nil
  | cons x xs ih =>
    refine (h x List.mem_cons_self s hi (F.refl s)).bind fun y s' hi' hs hy => ?_
    have hrest := ih hi' fun z hz s'' hi'' hs' =>
      h z (List.mem_cons_of_mem x hz) s'' hi'' (F.trans hs hs')
    refine hrest.bind fun ys s'' hi'' hs' hys => ?_
    exact gives_pure hi'' (.cons (hp x y s' s'' hs' hy) hys)

end Frame
end ShapeCheck
