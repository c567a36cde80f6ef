import ShapeCheck.Proofs.Env.Growing
import ShapeCheck.Proofs.Env.Session

/-! Lookups that are watched. Types that names are bound to have their references inside of objects,
functions and constructors, and all references are to names that are declared. So a reference is
followed in one step. Each step of a lookup is looked at, and whatever is not so raises an alarm. -/

namespace ShapeCheck
variable {φ : Features}

/-- No reference can be reached through members and elements alone, and every reference is to a
name that is declared. -/
structure Ty.Contractive (declared : String → Bool) (t : Ty) : Prop where
  grounded : t.Grounded
  refs : t.Everywhere fun u => ∀ n, u = .ref n → declared n

theorem Ty.Firm.contractive {t : Ty} (h : Ty.Firm φ t) : t.Contractive φ.known :=
  ⟨h.grounded, h.within.imp fun _ ha _ => ha.ref⟩

namespace Env

/-- What is looked for in a step: types of names and results are contractive, and a reference is
followed to a name that is defined, with none followed before it. -/
structure Session.Contracts (declared : String → Bool) (s : Session) : Prop where
  cells : ∀ c ∈ s.env.cells, ∀ t, c.progress = .settled t → t.Contractive declared
  results : ∀ t, s.task = .back (.ok t) → s.waits = [] → t.Contractive declared
  hops : ∀ fuel seen n, s.task = .chase fuel seen (.ref n) →
    seen = [] ∧ fuel ≠ 0 ∧ declared n ∧ s.env.isDefined n

/-- The steps of a task come to what the lookup comes to, and all of them are as they should be. -/
structure Watches (declared : String → Bool) (task : Task) (act : EnvM Ty) (env : Env) : Prop where
  reaches : ∃ log, Session.Reaches ⟨env, task, [], [], [], []⟩
    ⟨(act.run.run env).2, .back (act.run.run env).1, [], log, [], []⟩
  contracts : ∀ s, Session.Reaches ⟨env, task, [], [], [], []⟩ s → s.Contracts declared

open Classical in
/-- Raises an alarm if something is wrong with the steps of a lookup. -/
noncomputable def watching (declared : String → Bool) (task : Env → Task) (act : EnvM Ty) :
    EnvM Ty := do
  let env ← get
  if env.Watches declared (task env) act then act else throw .depthExceeded

end Env

/-- Names are looked up in the environment, with an eye on each step. -/
@[reducible]
noncomputable def Lookup.watched (declared : String → Bool) : Lookup where
  resolve name span := Env.watching declared (fun _ => .call name span) (Env.resolve name span)
  unwrap
    | .ref n => Env.watching declared (fun env => .chase env.chainBound [] (.ref n))
      (Env.unwrap (.ref n))
    | t => pure t
  follow recipe := Env.watching declared (fun _ => .work recipe) (Env.follow recipe)

/-- A cell whose recipe gives, or has given, what a name can be bound to. -/
def Cell.Sturdy (φ : Features) (c : Cell) : Prop :=
  match c.progress with
  | .waiting recipe => recipe.Safe φ (Ty.Firm φ)
  | .underWay => True
  | .settled t => Ty.Firm φ t

theorem Cell.Sturdy.safe {c : Cell} {recipe : Recipe Ty} (h : c.Sturdy φ)
    (hp : c.progress = .waiting recipe) : recipe.Safe φ (Ty.Firm φ) := by
  simpa only [Cell.Sturdy, hp] using h

theorem Cell.Sturdy.firm {c : Cell} {t : Ty} (h : c.Sturdy φ) (hp : c.progress = .settled t) :
    Ty.Firm φ t := by
  simpa only [Cell.Sturdy, hp] using h

namespace Env
variable {env : Env} {name : String} {f : Cell → Cell} {P Q : Ty → Prop} {waits : List Wait}
  {t : Ty} {s s' : Session} {recipe : Recipe Ty}

/-- The names are those that are known, and every cell is sturdy. -/
structure Sturdy (φ : Features) (env : Env) : Prop where
  known : ∀ n, env.isDefined n = φ.known n
  cell : ∀ c ∈ env.cells, c.Sturdy φ

theorem Idle.sturdy {plan : Plan φ} (hi : env.Idle plan) : env.Sturdy φ := by
  refine ⟨fun n => (hi.kept.known n).trans (plan.named n).symm, fun c hc => ?_⟩
  have hcell := hi.kept.cell c hc
  unfold Cell.Sturdy
  cases hp : c.progress with
  | waiting recipe =>
    rw [(hcell.planned hp).1]
    exact plan.safe (hi.kept.known_of_mem hc)
  | underWay => trivial
  | settled t => exact (hcell.solved hp).firm

theorem Sturdy.find? (h : env.Sturdy φ) {c : Cell} (hf : env.find? name = some c) : c.Sturdy φ :=
  h.cell c (find?_eq_some hf).1

theorem Sturdy.of_cells {env' : Env} (h : env.Sturdy φ) (hc : env'.cells = env.cells) :
    env'.Sturdy φ := by
  refine ⟨fun n => ?_, by rw [hc]; exact h.cell⟩
  rw [← h.known n, isDefined, isDefined, Env.find?, Env.find?, hc]

theorem Sturdy.update (h : env.Sturdy φ) (hn : ∀ c, (f c).name = c.name)
    (hf : ∀ c ∈ env.cells, (f c).Sturdy φ) : (env.update name f).Sturdy φ := by
  refine ⟨fun n => ?_, fun c hc => ?_⟩
  · rw [← h.known n, isDefined, isDefined, find?_update hn, Option.isSome_map]
  · rcases mem_update hc with ⟨b, hb, -, rfl⟩ | ⟨hc, -⟩
    · exact hf b hb
    · exact h.cell c hc

theorem Sturdy.mark (h : env.Sturdy φ) (name : String) : (mark name env).Sturdy φ :=
  h.update (f := fun c => { c with circular := true }) (fun _ => rfl) h.cell

theorem Sturdy.enter (h : env.Sturdy φ) (name : String) : (enter name env).Sturdy φ := by
  have hcells : (env.update name fun c => { c with progress := .underWay }).Sturdy φ :=
    h.update (fun _ => rfl) fun _ _ => trivial
  exact hcells.of_cells rfl

theorem Sturdy.filled (h : env.Sturdy φ) (name : String) (ht : Ty.Firm φ t) :
    (filled name t env).Sturdy φ := by
  have hleft : (leave env).Sturdy φ := h.of_cells rfl
  exact hleft.update (f := fun c => { c with progress := .settled t }) (fun _ => rfl) fun _ _ => ht

/-- What waits makes something of a result of some kind, and hands on what it should. Nothing waits
for the end but a type that a name can be bound to. -/
def Expects (φ : Features) (P : Ty → Prop) : List Wait → Prop
  | [] => ∀ t, P t → Ty.Firm φ t
  | .recipe next :: waits => (∀ t, P t → (next (.ok t)).Safe φ (Ty.Firm φ)) ∧
    (∀ e, next (.error e) = .done (.error e)) ∧ Expects φ (Ty.Firm φ) waits
  | .cell _ :: waits | .chain _ _ :: waits =>
    (∀ t, P t → Ty.Firm φ t) ∧ Expects φ (Ty.Firm φ) waits
  | .one :: _ | .each _ _ _ :: _ => False

theorem Expects.imp (h : Expects φ P waits) (hi : ∀ t, Q t → P t) : Expects φ Q waits := by
  cases waits with
  | nil => exact fun t ht => h t (hi t ht)
  | cons wait waits =>
    cases wait with
    | recipe next => exact ⟨fun t ht => h.1 t (hi t ht), h.2⟩
    | cell name => exact ⟨fun t ht => h.1 t (hi t ht), h.2⟩
    | chain fuel seen => exact ⟨fun t ht => h.1 t (hi t ht), h.2⟩
    | one => exact h
    | each name given names => exact h

theorem Expects.one (h : Expects φ (Ty.Firm φ) waits) (ht : Ty.Firm φ t) :
    Expects φ (· = t) waits :=
  h.imp fun _ he => he ▸ ht

/-- Nothing is made of a fault. -/
theorem Expects.none (h : Expects φ P waits) : Expects φ (fun _ => False) waits :=
  h.imp fun _ => False.elim

/-- What is done next leads to a result that is expected. -/
def Task.Fits (φ : Features) (waits : List Wait) : Task → Prop
  | .rest => True
  | .call _ _ => Expects φ (Ty.Firm φ) waits
  | .work recipe => (recipe.Safe φ (Ty.Firm φ) ∨ ∃ e, recipe = .done (.error e)) ∧
    Expects φ (Ty.Firm φ) waits
  | .chase fuel seen (.ref n) => seen = [] ∧ fuel ≠ 0 ∧ φ.known n ∧ Expects φ (Ty.Firm φ) waits
  | .chase _ _ t => Expects φ (· = t) waits
  | .back (.ok t) => Expects φ (· = t) waits
  | .back (.error _) => Expects φ (fun _ => False) waits

theorem fits_chase (fuel : Nat) (seen : List String) (hn : ∀ n, t ≠ .ref n)
    (h : Expects φ (· = t) waits) : (Task.chase fuel seen t).Fits φ waits := by
  cases t with
  | ref n => exact (hn n rfl).elim
  | _ => exact h

theorem Task.Fits.arrive {fuel : Nat} {seen : List String}
    (h : (Task.chase fuel seen t).Fits φ waits) (hn : ∀ n, t ≠ .ref n) :
    Expects φ (· = t) waits := by
  cases t with
  | ref n => exact (hn n rfl).elim
  | _ => exact h

/-- Between requests nothing goes wrong with a lookup. -/
structure Session.Steady (φ : Features) (s : Session) : Prop where
  env : s.env.Sturdy φ
  task : s.task.Fits φ s.waits
  todo : s.todo = []

/-- A recipe that asks for a type gets one as it should be, whether it is a reference or not. -/
theorem fits_unwrap {next : Except Fault Ty → Recipe Ty}
    (hs : (Recipe.unwrap t next).Safe φ (Ty.Firm φ)) (h : Expects φ (Ty.Firm φ) waits) :
    (Task.chase env.chainBound [] t).Fits φ (.recipe next :: waits) := by
  rcases t.ref_or_not_ref with ⟨n, rfl⟩ | hn
  · exact ⟨rfl, by simp [chainBound], hs.1.here.ref rfl, fun u hu => hs.2.1 u hu.within, hs.2.2, h⟩
  · refine fits_chase _ _ hn ⟨fun u hu => ?_, hs.2.2, h⟩
    exact hs.2.1 u (hu ▸ hs.1)

theorem Session.Steady.work (h : s.Steady φ) (ht : s.task = .work recipe) :
    (recipe.Safe φ (Ty.Firm φ) ∨ ∃ e, recipe = .done (.error e)) ∧
      Expects φ (Ty.Firm φ) s.waits := by
  simpa only [ht, Task.Fits] using h.task

/-- A recipe that goes on is a safe one. -/
theorem Session.Steady.safe (h : s.Steady φ) (ht : s.task = .work recipe)
    (hn : ∀ r, recipe ≠ .done r) : recipe.Safe φ (Ty.Firm φ) := by
  rcases (h.work ht).1 with hs | ⟨e, he⟩
  · exact hs
  · exact (hn _ he).elim

theorem Session.Steady.call {span : Option Span} (h : s.Steady φ)
    (ht : s.task = .call name span) : Expects φ (Ty.Firm φ) s.waits := by
  simpa only [ht, Task.Fits] using h.task

theorem Session.Steady.back (h : s.Steady φ) (ht : s.task = .back (.ok t)) :
    Expects φ (· = t) s.waits := by
  simpa only [ht, Task.Fits] using h.task

theorem Session.Steady.stop {e : Fault} (h : s.Steady φ) (ht : s.task = .back (.error e)) :
    Expects φ (fun _ => False) s.waits := by
  simpa only [ht, Task.Fits] using h.task

theorem steady_step (hstep : Session.Step s s') (h : s.Steady φ) : s'.Steady φ := by
  cases hstep with
  | define ht hd => cases h.todo.symm.trans hd
  | redefine ht hd => cases h.todo.symm.trans hd
  | resolve ht hd => cases h.todo.symm.trans hd
  | unwrap ht hd => cases h.todo.symm.trans hd
  | resolveAll ht hd => cases h.todo.symm.trans hd
  | resolveNone ht hd => cases h.todo.symm.trans hd
  | unknown ht hf hm =>
    refine ⟨h.env.of_cells ?_, (h.call ht).one (Ty.firm_prim _), h.todo⟩
    unfold reportMissing
    split <;> rfl
  | unknownAgain ht hf hm => exact ⟨h.env, (h.call ht).one (Ty.firm_prim _), h.todo⟩
  | settled ht hf hp => exact ⟨h.env, (h.call ht).one ((h.env.find? hf).firm hp), h.todo⟩
  | circularAgain ht hf hp hc => exact ⟨h.env, (h.call ht).one (Ty.firm_prim _), h.todo⟩
  | circular ht hf hp hc hr hd =>
    exact ⟨(h.env.mark _).of_cells rfl, (h.call ht).one (Ty.firm_prim _), h.todo⟩
  | abandoned ht hf hp hc hr => exact ⟨h.env.mark _, (h.call ht).none, h.todo⟩
  | enter ht hf hp =>
    exact ⟨h.env.enter _, ⟨.inl ((h.env.find? hf).safe hp), fun _ => id, h.call ht⟩, h.todo⟩
  | @done r ht =>
    obtain ⟨hs, hw⟩ := h.work ht
    cases r with
    | error e => exact ⟨h.env, hw.none, h.todo⟩
    | ok t =>
      refine ⟨h.env, hw.one (hs.resolve_right ?_), h.todo⟩
      rintro ⟨e, he⟩
      cases he
  | askName ht =>
    have hs := h.safe ht (by simp)
    exact ⟨h.env, ⟨hs.1, hs.2, (h.work ht).2⟩, h.todo⟩
  | askType ht => exact ⟨h.env, fits_unwrap (h.safe ht (by simp)) (h.work ht).2, h.todo⟩
  | askKnown ht =>
    have hs := h.safe ht (by simp)
    exact ⟨h.env, ⟨.inl (hs _ fun hd => (h.env.known _).symm.trans hd), (h.work ht).2⟩, h.todo⟩
  | report ht =>
    exact ⟨h.env.of_cells rfl, ⟨.inl (h.safe ht (by simp)).2, (h.work ht).2⟩, h.todo⟩
  | postpone ht =>
    exact ⟨h.env.of_cells rfl, ⟨.inl (h.safe ht (by simp)).2, (h.work ht).2⟩, h.todo⟩
  | arrive ht hn => exact ⟨h.env, (ht ▸ h.task).arrive hn, h.todo⟩
  | turn ht hs =>
    have hfits := h.task
    rw [ht] at hfits
    rw [hfits.1] at hs
    cases hs
  | tire ht hs =>
    have hfits := h.task
    rw [ht] at hfits
    exact (hfits.2.1 rfl).elim
  | hop ht hs =>
    have hfits := h.task
    rw [ht] at hfits
    exact ⟨h.env, ⟨fun _ => id, hfits.2.2.2⟩, h.todo⟩
  | @answerRecipe waits r next ht hw =>
    cases r with
    | ok t =>
      have hback := h.back ht
      rw [hw] at hback
      exact ⟨h.env, ⟨.inl (hback.1 t rfl), hback.2.2⟩, h.todo⟩
    | error e =>
      have hback := h.stop ht
      rw [hw] at hback
      exact ⟨h.env, ⟨.inr ⟨e, hback.2.1 e⟩, hback.2.2⟩, h.todo⟩
  | answerChain ht hw =>
    have hback := h.back ht
    rw [hw] at hback
    have hfirm := hback.1 _ rfl
    exact ⟨h.env, fits_chase _ _ hfirm.grounded.not_ref (hback.2.one hfirm), h.todo⟩
  | breakChain ht hw =>
    have hback := h.stop ht
    rw [hw] at hback
    refine ⟨h.env, ?_, h.todo⟩
    rw [ht]
    exact hback.2.none
  | @fill waits t name value ht hw hv =>
    have hback := h.back ht
    rw [hw] at hback
    have hfirm := hback.1 t rfl
    have hvalue : Ty.Firm φ value := by
      rw [hv]
      split
      · exact Ty.firm_prim _
      · exact hfirm
    exact ⟨h.env.filled _ hvalue, hback.2.one hvalue, h.todo⟩
  | fail ht hw =>
    have hback := h.stop ht
    rw [hw] at hback
    refine ⟨h.env.of_cells rfl, ?_, h.todo⟩
    rw [ht]
    exact hback.2.none
  | @answerOne r ht hw =>
    cases r with
    | ok t => exact (hw ▸ h.back ht).elim
    | error e => exact (hw ▸ h.stop ht).elim
  | answerNext ht hw => exact (hw ▸ h.back ht).elim
  | answerAll ht hw => exact (hw ▸ h.back ht).elim
  | answerFault ht hw => exact (hw ▸ h.stop ht).elim

theorem Session.Steady.contracts (h : s.Steady φ) : s.Contracts φ.known where
  cells c hc _ hp := ((h.env.cell c hc).firm hp).contractive
  results t ht hw := by
    have hback := h.back ht
    rw [hw] at hback
    exact (hback t rfl).contractive
  hops fuel seen n ht := by
    have hfits := h.task
    rw [ht] at hfits
    exact ⟨hfits.1, hfits.2.1, hfits.2.2.1, (h.env.known n).trans hfits.2.2.1⟩

theorem watches_of_fits {task : Task} {act : EnvM Ty} (he : env.Sturdy φ) (ht : task.Fits φ [])
    (ha : Realizes env task act) : env.Watches φ.known task act := by
  obtain ⟨r, env', hrun, htakes⟩ := ha
  refine ⟨?_, fun s hreach => ?_⟩
  · rw [hrun]
    exact htakes.reaches [] [] [] []
  · have hstart : Session.Steady φ ⟨env, task, [], [], [], []⟩ := ⟨he, ht, rfl⟩
    have hsteady : s.Steady φ := by
      induction hreach with
      | refl => exact hstart
      | tail _ hstep ih => exact steady_step hstep ih
    exact hsteady.contracts

section
variable {declared : String → Bool} {task : Env → Task} {act : EnvM Ty}
open Classical

theorem run_watching_eq : (watching declared task act).run.run env =
    if env.Watches declared (task env) act then act.run.run env
    else (.error .depthExceeded, env) := by
  show ((if env.Watches declared (task env) act then act else throw .depthExceeded :
    EnvM Ty).run.run env) = _
  split <;> rfl

theorem run_watching (h : env.Watches declared (task env) act) :
    (watching declared task act).run.run env = act.run.run env := by
  rw [run_watching_eq, if_pos h]

/-- Without an alarm, a task that is watched goes its usual way. -/
theorem run_of_watching {r : Except Fault Ty} {env' : Env}
    (h : (watching declared task act).run.run env = (r, env')) (hr : r ≠ .error .depthExceeded) :
    act.run.run env = (r, env') := by
  rw [run_watching_eq] at h
  split at h
  · exact h
  · cases h
    exact (hr rfl).elim

end

end Env

theorem Lookup.unwrap_watched {declared : String → Bool} {t : Ty} (hn : ∀ n, t ≠ .ref n) :
    (Lookup.watched declared).unwrap t = pure t := by
  cases t with
  | ref n => exact (hn n rfl).elim
  | _ => rfl

/-- Nothing is out of order when a program is gone through, so no alarm is raised. -/
theorem Lookup.agrees_watched {plan : Plan φ} :
    @Lookup.Agrees φ (Lookup.watched φ.known) plan :=
  letI := Lookup.watched φ.known
  { plain := Lookup.unwrap_watched
    given := by
      intro t t' env env' hrun
      rcases t.ref_or_not_ref with ⟨n, rfl⟩ | hn
      · exact Env.run_of_watching hrun (by simp)
      · rw [Env.unwrap_eq_pure hn]
        exact @Lookup.unwrap_watched φ.known t hn ▸ hrun
    unwrap := by
      intro t env hi ht
      rcases t.ref_or_not_ref with ⟨n, rfl⟩ | hn
      · refine Env.run_watching (Env.watches_of_fits hi.sturdy ⟨rfl, ?_, ht.here.ref rfl, ?_⟩
          (Env.realizes_unwrap env (.ref n)))
        · simp [Env.chainBound]
        · exact fun _ => id
      · rw [Env.unwrap_eq_pure hn]
        exact congrArg (fun act : EnvM Ty => act.run.run env) (Lookup.unwrap_watched hn)
    resolve := fun _ hi _ =>
      Env.run_watching (Env.watches_of_fits hi.sturdy (fun _ => id) (Env.realizes_resolve _ _ _))
    follow := fun hi hs =>
      Env.run_watching (Env.watches_of_fits hi.sturdy ⟨.inl hs, fun _ => id⟩
        (Env.realizes_follow _ _)) }

end ShapeCheck
