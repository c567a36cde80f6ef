import Mathlib.Data.List.Chain
import ShapeCheck.Proofs.Env.Naming

/-! Names are resolved by a plan that has a recipe for each of them. No more recipes nest than there
are waiting cells, since each one that starts takes a cell. A name whose recipe leads back to it is
found on the way, and a cell that is settled holds what its recipe gives for the other names. -/

namespace ShapeCheck
variable {φ : Features} {α β : Type}

/-- The recipes of the names there are, and an edge to each name that a recipe asks for. -/
structure Plan (φ : Features) where
  known : String → Bool
  recipe : String → Recipe Ty
  Edge : String → String → Prop
  named : ∀ n, φ.known n = known n
  safe : ∀ {u : String}, known u → (recipe u).Safe φ (Ty.Firm φ)
  asked : ∀ {N : Naming} {u v : String}, N.Fair φ known → known u →
    v ∈ ((recipe u).under N).asked → known v → Edge u v
  asks : ∀ {N : Naming} {u v : String} {t : Ty}, N.Fair φ known → known u →
    ((recipe u).under N).result = .ok t → Edge u v → known v ∧ v ∈ ((recipe u).under N).asked

/-- A way along edges from a name back to it. -/
structure Loop (Edge : String → String → Prop) where
  name : String
  span : Option Span
  between : List String
  walk : List.IsChain Edge (name :: between ++ [name])

def Loop.report {Edge : String → String → Prop} (l : Loop Edge) : Diagnostic :=
  Env.circularName l.name l.span (l.name :: l.between ++ [l.name])

theorem isChain_cycle {Edge : String → String → Prop} {running : List String} {name target : String}
    (hr : running.IsChain fun v u => Edge u v) (hm : name ∈ running)
    (ht : ∀ u, running.head? = some u → Edge u target) :
    List.IsChain Edge (name :: (running.takeWhile (· ≠ name)).reverse ++ [target]) := by
  induction running generalizing target with
  | nil => cases hm
  | cons a rest ih =>
    have hat : Edge a target := ht a rfl
    by_cases ha : a = name
    · subst ha
      simpa using hat
    · have hm' : name ∈ rest := (List.mem_cons.mp hm).resolve_left (Ne.symm ha)
      have hrest := ih hr.tail hm' fun u hu => by
        obtain ⟨b, bs, rfl⟩ : ∃ b bs, rest = b :: bs := List.exists_cons_of_ne_nil (by
          rintro rfl
          cases hu)
        cases hu
        exact (List.isChain_cons_cons.mp hr).1
      simp only [ha, ne_eq, not_false_eq_true, decide_true, List.takeWhile_cons_of_pos,
        List.reverse_cons]
      have hsplit := List.isChain_split.mpr
        ⟨hrest, List.isChain_pair.mpr hat⟩
      simpa using hsplit

namespace Env
variable {plan : Plan φ} {env env' env'' : Env} {name : String} {c : Cell} {f : Cell → Cell}
  {N : Naming}

/-- From a name to one that its recipe asks for and that is not circular. -/
def Onward (plan : Plan φ) (env : Env) (v u : String) : Prop :=
  plan.Edge u v ∧ env.isCircular v = false

theorem ends_grow {u : String} (hg : env.Grows env') (h : Acc (env.Onward plan) u) :
    Acc (env'.Onward plan) u := by
  refine Subrelation.accessible (fun {v u} hv => ⟨hv.1, ?_⟩) h
  by_contra hc
  have hcirc : env'.isCircular v := hg.isCircular (by simpa using hc)
  rw [hv.2] at hcirc
  cases hcirc

/-- The recipe of a cell has given its type, and leads nowhere without end. -/
structure Solved (plan : Plan φ) (env : Env) (c : Cell) (t : Ty) : Prop where
  firm : Ty.Firm φ t
  never : c.circular → t = Ty.never
  ends : Acc (env.Onward plan) c.name
  result : ∀ N : Naming, N.Completes φ env →
    ∃ u, ((plan.recipe c.name).under N).result = .ok u ∧ (c.circular = false → t = u)

theorem Solved.grow {t : Ty} (hg : env.Grows env') (h : Solved plan env c t) :
    Solved plan env' c t :=
  ⟨h.firm, h.never, ends_grow hg h.ends, fun N hN => h.result N (hN.of_grows hg)⟩

end Env

/-- A cell whose recipe is the one of the plan, runs, or has given its type. -/
def Cell.Kept (plan : Plan φ) (env : Env) (c : Cell) : Prop :=
  match c.progress with
  | .waiting recipe => recipe = plan.recipe c.name ∧ c.circular = false
  | .underWay => c.name ∈ env.resolving
  | .settled t => Env.Solved plan env c t

theorem Cell.Kept.running {plan : Plan φ} {env : Env} {c : Cell} (h : c.Kept plan env)
    (hp : c.progress = .underWay) : c.name ∈ env.resolving := by
  simpa only [Cell.Kept, hp] using h

theorem Cell.Kept.solved {plan : Plan φ} {env : Env} {c : Cell} {t : Ty} (h : c.Kept plan env)
    (hp : c.progress = .settled t) : Env.Solved plan env c t := by
  simpa only [Cell.Kept, hp] using h

theorem Cell.Kept.planned {plan : Plan φ} {env : Env} {c : Cell} {recipe : Recipe Ty}
    (h : c.Kept plan env) (hp : c.progress = .waiting recipe) :
    recipe = plan.recipe c.name ∧ c.circular = false := by
  simpa only [Cell.Kept, hp] using h

theorem Cell.Kept.grow {plan : Plan φ} {env env' : Env} {c : Cell} (h : c.Kept plan env)
    (hg : env.Grows env') (hr : c.progress = .underWay → c.name ∈ env'.resolving) :
    c.Kept plan env' := by
  unfold Cell.Kept
  cases hp : c.progress with
  | waiting recipe => exact h.planned hp
  | underWay => exact hr hp
  | settled t => exact (h.solved hp).grow hg

namespace Env
variable {plan : Plan φ} {env env' env'' : Env} {name : String} {c : Cell} {f : Cell → Cell}
  {N : Naming} {t t' : Ty}

/-- The circular names are those that were reported, each once and with a way round. -/
structure Looped (plan : Plan φ) (env : Env) (loops : List (Loop plan.Edge)) : Prop where
  reports : Diagnostic.ofKind .circularAlias env.diagnostics = loops.map Loop.report
  once : (loops.map (·.name)).Nodup
  exact : ∀ n, env.isCircular n ↔ n ∈ loops.map (·.name)

theorem Looped.same {loops : List (Loop plan.Edge)} (h : env.Looped plan loops)
    (hd : Diagnostic.ofKind .circularAlias env'.diagnostics =
      Diagnostic.ofKind .circularAlias env.diagnostics)
    (hc : ∀ n, env'.isCircular n = env.isCircular n) : env'.Looped plan loops :=
  ⟨hd.trans h.reports, h.once, fun n => by rw [hc n]; exact h.exact n⟩

structure Kept (plan : Plan φ) (env : Env) : Prop where
  apart : env.names.Nodup
  known : ∀ n, env.isDefined n = plan.known n
  cell : ∀ c ∈ env.cells, c.Kept plan env
  busy : ∀ n ∈ env.resolving, ∃ c ∈ env.cells, c.name = n ∧ c.progress = .underWay
  /-- Each recipe that runs was asked for by the next one. -/
  route : env.resolving.IsChain fun v u => plan.Edge u v
  loops : ∃ loops, env.Looped plan loops
  duty : ∀ d ∈ env.duties, d.Within φ

theorem Kept.known_of_mem (hi : env.Kept plan) (hc : c ∈ env.cells) : plan.known c.name :=
  (hi.known c.name).symm.trans (isDefined_of_mem hc)

theorem Kept.named (hi : env.Kept plan) (n : String) (hn : env.isDefined n) : φ.known n :=
  (plan.named n).trans ((hi.known n).symm.trans hn)

/-- A name is done if it is circular or leads nowhere without end. -/
def Done (plan : Plan φ) (env : Env) (n : String) : Prop :=
  env.isCircular n ∨ Acc (env.Onward plan) n

theorem Done.grow {n : String} (hg : env.Grows env') (h : env.Done plan n) : env'.Done plan n :=
  h.imp hg.isCircular (ends_grow hg)

/-- What every name is bound to so far, and `never` for those that have no type yet. -/
def naming (env : Env) : Naming := ⟨env.isDefined, env.bound⟩

theorem bound_of_mem (ha : env.names.Nodup) (hc : c ∈ env.cells) (hp : c.progress = .settled t) :
    env.bound c.name = t := by
  simp only [bound, find?_of_mem ha hc, hp]

theorem Kept.completes (hi : env.Kept plan) : env.naming.Completes φ env where
  known _ := rfl
  named := hi.named
  firm n := by
    refine bound_mem (Ty.firm_prim _) (Ty.firm_prim _) (fun t ht => ?_) n
    obtain ⟨c, hc, hp⟩ := List.mem_filterMap.mp ht
    cases hprog : c.progress with
    | settled u =>
      simp only [hprog, Option.some.injEq] at hp
      exact hp ▸ ((hi.cell c hc).solved hprog).firm
    | _ => simp [hprog] at hp
  missing n hn := by
    simp only [isDefined, Option.isSome_eq_false_iff, Option.isNone_iff_eq_none] at hn
    simp [naming, bound, hn]
  settled c hc t hp := bound_of_mem hi.apart hc hp
  circular c hc hcirc := by
    have hcell := hi.cell c hc
    simp only [naming, bound, find?_of_mem hi.apart hc]
    cases hp : c.progress with
    | settled t => exact (hcell.solved hp).never hcirc
    | _ => rfl

/-- Recipes may start and be done, but nothing is taken back. -/
def frame (plan : Plan φ) : Frame Env where
  Err := φ.Err
  Inv := Kept plan
  Step env env' := env'.resolving = env.resolving ∧ env.Grows env'
  refl env := ⟨rfl, .refl env⟩
  trans h h' := ⟨h'.1.trans h.1, h.2.trans h'.2⟩

/-- If a recipe runs, the name is one that it asks for. -/
def Awaits (plan : Plan φ) (env : Env) (n : String) : Prop :=
  ∀ u, env.resolving.head? = some u → plan.Edge u n

/-- What came of following a type to what it stands for. -/
structure Found (plan : Plan φ) (env : Env) (t t' : Ty) (env' : Env) : Prop where
  look : ∀ N : Naming, N.Completes φ env' → N.look t = t'
  begun : ∀ c ∈ env'.cells, c.name ∈ Naming.sought t → c.progress.isWaiting = false
  done : ∀ n ∈ Naming.sought t, plan.known n → env'.Done plan n
  tally : ∀ N : Naming, N.Completes φ env' → (env'.tally N).Perm (env.tally N)

theorem found_self (plan : Plan φ) (env : Env) (ht : ∀ n, t ≠ .ref n) :
    Found plan env t t env where
  look N _ := N.look_of_not_ref ht
  begun := by simp [Naming.sought_of_not_ref ht]
  done := by simp [Naming.sought_of_not_ref ht]
  tally _ _ := .refl _

/-- What came of running a recipe, read with the names as they are afterwards. -/
structure Ran (plan : Plan φ) (recipe : Recipe α) (env : Env) (a : α) (env' : Env) : Prop where
  result : ∀ N : Naming, N.Completes φ env' → (recipe.under N).result = .ok a
  done : ∀ N : Naming, N.Completes φ env' → ∀ n ∈ (recipe.under N).asked, plan.known n →
    env'.Done plan n
  tally : ∀ N : Naming, N.Completes φ env' →
    (env'.tally N).Perm (env.tally N ++ (recipe.under N).left)

/-- A recipe that looks something up first. -/
theorem Ran.after {recipe : Recipe α} {next : Except Fault Ty → Recipe α} {a : α}
    (hf : Found plan env t t' env') (hg : env'.Grows env'')
    (h : Ran plan (next (.ok t')) env' a env'')
    (hu : ∀ N : Naming, recipe.under N =
      { (next (.ok (N.look t))).under N with
        asked := Naming.sought t ++ ((next (.ok (N.look t))).under N).asked }) :
    Ran plan recipe env a env'' := by
  refine ⟨fun N hN => ?_, fun N hN n hn hk => ?_, fun N hN => ?_⟩
  · rw [hu N, hf.look N (hN.of_grows hg)]
    exact h.result N hN
  · rw [hu N, hf.look N (hN.of_grows hg)] at hn
    rcases List.mem_append.mp hn with hn | hn
    · exact (hf.done n hn hk).grow hg
    · exact h.done N hN n hn hk
  · rw [hu N, hf.look N (hN.of_grows hg)]
    exact (h.tally N hN).trans ((hf.tally N (hN.of_grows hg)).append_right _)

/-- Each name that the recipe asks for is asked for by the recipe that runs. -/
def Within (plan : Plan φ) (env : Env) (recipe : Recipe α) : Prop :=
  ∀ N : Naming, N.Completes φ env → ∀ n ∈ (recipe.under N).asked, plan.known n →
    env.Awaits plan n

theorem run_outcome {act : EnvM α} {r : Except Fault α} (h : act.run.run env = (r, env')) :
    (outcome act).run.run env = (.ok r, env') := by
  rw [outcome, run_tryCatch, map_eq_pure_bind, run_bind, h]
  cases r <;> rfl

/-- What is done with an outcome, if a fault is passed on. -/
theorem settles_outcome {Err : Fault → Prop} {act : EnvM α} {k : Except Fault α → EnvM β}
    {Ok : α → Env → Prop} {Ok' : β → Env → Prop} (h : Settles Err (fun _ => act) env Ok)
    (hok : ∀ a env', Ok a env' → Settles Err (fun _ => k (.ok a)) env' Ok')
    (herr : ∀ e env', ∃ env'', (k (.error e)).run.run env' = (.error e, env'')) :
    Settles Err (fun _ => outcome act >>= k) env Ok' := by
  obtain ⟨bound, r, env', hrun, hr⟩ := h
  have hout := run_outcome (hrun bound (Nat.le_refl _))
  cases r with
  | ok a =>
    obtain ⟨bound', r', env'', hrun', hr'⟩ := hok a env' hr
    refine ⟨bound', r', env'', fun d hd => ?_, hr'⟩
    rw [run_bind, hout]
    exact hrun' d hd
  | error e =>
    obtain ⟨env'', herror⟩ := herr e env'
    refine ⟨0, .error e, env'', fun d _ => ?_, hr⟩
    rw [run_bind, hout]
    exact herror

/-- A way to resolve names as long as no more than `n` recipes wait. -/
def Resolves (plan : Plan φ) (n : Nat) (resolve : Resolver) : Prop :=
  ∀ (name : String) (span : Option Span) {env : Env}, env.Kept plan → env.waiting ≤ n →
    (plan.known name → env.Awaits plan name) →
    (frame plan).Gives (fun _ => resolve name span) env fun t env' =>
      Ty.Firm φ t ∧ Found plan env (.ref name) t env'

variable {n : Nat} {resolve : Resolver}

theorem gives_unwrapBy (hr : Resolves plan n resolve) (hi : env.Kept plan) (hw : env.waiting ≤ n)
    (ht : Ty.Within φ t) (ha : ∀ n ∈ Naming.sought t, plan.known n → env.Awaits plan n) {fuel : Nat}
    (hf : 0 < fuel) :
    (frame plan).Gives (fun _ => unwrapBy resolve fuel [] t) env fun t' env' =>
      Ty.Within φ t' ∧ Found plan env t t' env' := by
  obtain ⟨fuel, rfl⟩ : ∃ m, fuel = m + 1 := ⟨fuel - 1, by omega⟩
  rcases t.ref_or_not_ref with ⟨name, rfl⟩ | hn
  · refine (hr name none hi hw (ha name (by simp [Naming.sought]))).bind
      fun t' env' hi' _ ht' => ?_
    rw [unwrapBy_of_not_ref ht'.1.grounded.not_ref]
    exact Frame.gives_pure hi' ⟨ht'.1.within, ht'.2⟩
  · rw [unwrapBy_of_not_ref hn]
    exact Frame.gives_pure hi ⟨ht, found_self plan env hn⟩

/-- An environment with the same cells is kept if its problems and duties are in order. -/
theorem Kept.same (hi : env.Kept plan) (hc : env'.cells = env.cells)
    (hr : env'.resolving = env.resolving) (hd : env.diagnostics <+: env'.diagnostics)
    (hl : Diagnostic.ofKind .circularAlias env'.diagnostics =
      Diagnostic.ofKind .circularAlias env.diagnostics)
    (ht : ∀ d ∈ env'.duties, d.Within φ) : env'.Kept plan := by
  have hg : env.Grows env' := .of_cells hc hd
  refine ⟨by rw [hg.names]; exact hi.apart, fun n => (hg.isDefined n).trans (hi.known n),
    fun c hm => ?_, ?_, ?_, ?_, ht⟩
  · rw [hc] at hm
    exact (hi.cell c hm).grow hg fun hp => hr ▸ (hi.cell c hm).running hp
  · rw [hc, hr]
    exact hi.busy
  · rw [hr]
    exact hi.route
  · obtain ⟨loops, h⟩ := hi.loops
    exact ⟨loops, h.same hl fun n => by simp only [isCircular, find?, hc]⟩

theorem Kept.report (hi : env.Kept plan) {d : Diagnostic} (hd : d.kind ≠ .circularAlias) :
    (env.report d).Kept plan :=
  hi.same rfl rfl (List.prefix_append _ _)
    (by simp [Diagnostic.ofKind, Env.report, hd]) hi.duty

theorem Kept.postpone (hi : env.Kept plan) {duty : Obligation} (hd : duty.Within φ) :
    (env.postpone duty).Kept plan :=
  hi.same rfl rfl List.prefix_rfl rfl
    (List.forall_mem_append.mpr ⟨hi.duty, List.forall_mem_singleton.mpr hd⟩)

theorem Kept.reportMissing (hi : env.Kept plan) (name : String) (span : Option Span) :
    (reportMissing name span env).Kept plan := by
  unfold Env.reportMissing
  split
  · exact hi
  · have hsame : ({ env with missing := name :: env.missing } : Env).Kept plan :=
      hi.same rfl rfl List.prefix_rfl rfl hi.duty
    exact hsame.report (by simp [unknownName, Diagnostic.plain])

theorem ne_circularAlias {k : Diagnostic.Kind} (h : k.ofLookup = false) : k ≠ .circularAlias := by
  rintro rfl
  cases h

theorem gives_run {P : α → Prop} {recipe : Recipe α} (hr : Resolves plan n resolve)
    (hs : recipe.Safe φ P) (hi : env.Kept plan) (hw : env.waiting ≤ n)
    (ha : env.Within plan recipe) :
    (frame plan).Gives (fun _ => recipe.run resolve) env fun a env' =>
      P a ∧ Ran plan recipe env a env' := by
  induction recipe generalizing env with
  | done result =>
    cases result with
    | ok a =>
      refine Frame.gives_pure hi ⟨hs, fun _ _ => rfl, fun _ _ => by simp [Recipe.under],
        fun N _ => ?_⟩
      simp [Recipe.under]
    | error e => exact Frame.gives_throw hs
  | resolve name span next ih =>
    have hknown : plan.known name → env.Awaits plan name :=
      ha env.naming hi.completes name (by simp [Recipe.under])
    refine settles_outcome (hr name span hi hw hknown) (fun t env' h => ?_) fun e env' => ?_
    · obtain ⟨hi', hstep, ht, hfound⟩ := h
      have hin : env'.Within plan (next (.ok t)) := fun N hN m hm hk => by
        have hlook : N.bound name = t := hfound.look N hN
        have hasked := ha N (hN.of_grows hstep.2) m (by
          simp only [Recipe.under, hlook]
          exact List.mem_cons_of_mem _ hm) hk
        unfold Awaits at hasked ⊢
        rwa [hstep.1]
      refine Settles.imp (ih _ (hs.1 t ht) hi' (hstep.2.waiting_le.trans hw) hin) ?_
      rintro a env'' ⟨hi'', hstep', ha, hran⟩
      exact ⟨hi'', (frame plan).trans hstep hstep', ha,
        hran.after hfound hstep'.2 fun N => rfl⟩
    · exact ⟨env', by rw [hs.2 e]; rfl⟩
  | unwrap type next ih =>
    have hknown : ∀ m ∈ Naming.sought type, plan.known m → env.Awaits plan m := fun m hm =>
      ha env.naming hi.completes m (List.mem_append_left _ hm)
    refine Frame.Gives.get_bind ?_
    refine settles_outcome (gives_unwrapBy hr hi hw hs.1 hknown (by simp [chainBound]))
      (fun t env' h => ?_) fun e env' => ?_
    · obtain ⟨hi', hstep, ht, hfound⟩ := h
      have hin : env'.Within plan (next (.ok t)) := fun N hN m hm hk => by
        have hlook : N.look type = t := hfound.look N hN
        have hasked := ha N (hN.of_grows hstep.2) m (by
          simp only [Recipe.under, hlook]
          exact List.mem_append_right _ hm) hk
        unfold Awaits at hasked ⊢
        rwa [hstep.1]
      refine Settles.imp (ih _ (hs.2.1 t ht) hi' (hstep.2.waiting_le.trans hw) hin) ?_
      rintro a env'' ⟨hi'', hstep', ha, hran⟩
      exact ⟨hi'', (frame plan).trans hstep hstep', ha,
        hran.after hfound hstep'.2 fun N => rfl⟩
    · exact ⟨env', by rw [hs.2.2 e]; rfl⟩
  | isDefined name next ih =>
    refine Frame.Gives.get_bind ((ih _ (hs _ (hi.named name)) hi hw fun N hN m hm => ?_).imp
      fun a env' _ hstep h => ?_)
    · refine ha N hN m ?_
      rwa [Recipe.under, hN.known]
    · have hknown : ∀ N : Naming, N.Completes φ env' →
          (Recipe.isDefined name next).under N = (next (env.isDefined name)).under N :=
        fun N hN => by rw [Recipe.under, hN.known, hstep.2.isDefined]
      refine ⟨h.1, fun N hN => ?_, fun N hN => ?_, fun N hN => ?_⟩
      · rw [hknown N hN]
        exact h.2.result N hN
      · rw [hknown N hN]
        exact h.2.done N hN
      · rw [hknown N hN]
        exact h.2.tally N hN
  | report problem next ih =>
    have hg := grows_report problem env
    refine Frame.Gives.modify_bind ⟨rfl, hg⟩ ((ih hs.2 (hi.report (ne_circularAlias hs.1)) hw
      fun N hN => ha N (hN.of_grows hg)).imp fun a env' _ hstep h => ?_)
    refine ⟨h.1, h.2.result, h.2.done, fun N hN => (h.2.tally N hN).trans ?_⟩
    have htally := (tally_report N env hs.1).append_right (next.under N).left
    simpa [Recipe.under] using htally
  | postpone duty next ih =>
    have hg := grows_postpone duty env
    refine Frame.Gives.modify_bind ⟨rfl, hg⟩ ((ih hs.2 (hi.postpone hs.1) hw
      fun N hN => ha N (hN.of_grows hg)).imp fun a env' _ hstep h => ?_)
    refine ⟨h.1, h.2.result, h.2.done, fun N hN => (h.2.tally N hN).trans ?_⟩
    have htally := (tally_postpone N env duty).append_right (next.under N).left
    simpa [Recipe.under] using htally

theorem find?_update (hf : ∀ c, (f c).name = c.name) (n : String) :
    (env.update name f).find? n =
      (env.find? n).map fun c => if c.name = name then f c else c := by
  have hcomp : ((fun c : Cell => decide (c.name = n)) ∘ fun c => if c.name = name then f c else c) =
      fun c => decide (c.name = n) := by
    funext c
    by_cases hn : c.name = name <;> simp [hn, hf]
  simp only [find?, update, List.find?_map, hcomp]

/-- Marks a name that was needed for its own definition. -/
def mark (name : String) (env : Env) : Env := env.update name fun c => { c with circular := true }

theorem isCircular_mark (hc : c ∈ env.cells) (n : String) :
    (mark c.name env).isCircular n ↔ env.isCircular n ∨ n = c.name := by
  have hfind : (env.update c.name fun c => { c with circular := true }).find? n =
      (env.find? n).map fun b => if b.name = c.name then { b with circular := true } else b :=
    find?_update (fun _ => by rfl) n
  unfold isCircular mark
  rw [hfind]
  cases hf : env.find? n with
  | none =>
    have hne : n ≠ c.name := by
      rintro rfl
      have hdef := isDefined_of_mem hc
      simp [isDefined, hf] at hdef
    simp [hne]
  | some b =>
    obtain ⟨_, rfl⟩ := find?_eq_some hf
    by_cases hb : b.name = c.name <;> simp [hb]

theorem grows_mark (hi : env.Kept plan) (hc : c ∈ env.cells) (hp : c.progress = .underWay) :
    env.Grows (mark c.name env) := by
  refine grows_update fun b hb hn => ⟨rfl, .refl _, fun _ => rfl, fun hs => ?_⟩
  rw [eq_of_name_eq hi.apart hb hc hn, hp] at hs
  cases hs

/-- The loop that is closed when a name is asked for whose recipe runs. -/
def loop (hi : env.Kept plan) (hc : c ∈ env.cells) (hp : c.progress = .underWay)
    (ha : env.Awaits plan c.name) : Loop plan.Edge :=
  ⟨c.name, c.span, _, isChain_cycle hi.route ((hi.cell c hc).running hp) ha⟩

/-- Closing a cycle keeps everything in order. -/
theorem Kept.closed (hi : env.Kept plan) (hc : c ∈ env.cells) (hp : c.progress = .underWay)
    (hn : c.circular = false) (ha : env.Awaits plan c.name) :
    ((mark c.name env).report (loop hi hc hp ha).report).Kept plan := by
  have hg := (grows_mark hi hc hp).trans (grows_report (loop hi hc hp ha).report _)
  refine ⟨by rw [hg.names]; exact hi.apart, fun n => (hg.isDefined n).trans (hi.known n),
    fun b hb => ?_, fun n hm => ?_, hi.route, ?_, hi.duty⟩
  · rcases mem_update (show b ∈ (env.update c.name _).cells from hb) with
      ⟨b', hb', hbn, rfl⟩ | ⟨hb, _⟩
    · have hrunning := (hi.cell c hc).running hp
      rw [eq_of_name_eq hi.apart hb' hc hbn]
      unfold Cell.Kept
      rw [hp]
      exact hrunning
    · exact (hi.cell b hb).grow hg (hi.cell b hb).running
  · obtain ⟨b, hb, rfl, hbp⟩ := hi.busy n hm
    by_cases hbn : b.name = c.name
    · exact ⟨_, mem_update_self hb hbn, rfl, hbp⟩
    · exact ⟨b, mem_update_other hb hbn, rfl, hbp⟩
  · obtain ⟨loops, hl⟩ := hi.loops
    have hnew : c.name ∉ loops.map (·.name) := fun hm => by
      have hcirc := (hl.exact c.name).mpr hm
      rw [isCircular_of_mem hi.apart hc, hn] at hcirc
      cases hcirc
    refine ⟨loops ++ [loop hi hc hp ha], ?_, ?_, fun n => ?_⟩
    · rw [List.map_append, ← hl.reports]
      exact List.filter_append (p := fun d : Diagnostic => d.kind = .circularAlias)
        env.diagnostics [(loop hi hc hp ha).report]
    · rw [List.map_append, List.nodup_append]
      refine ⟨hl.once, List.nodup_singleton _, ?_⟩
      rintro a hm b hb rfl
      rw [List.mem_singleton.mp hb] at hm
      exact hnew hm
    · rw [List.map_append, List.mem_append, ← hl.exact n]
      exact (isCircular_mark hc n).trans (or_congr_right List.mem_singleton.symm)

theorem gives_closeCycle (hi : env.Kept plan) (hc : c ∈ env.cells) (hp : c.progress = .underWay)
    (ha : env.Awaits plan c.name) :
    (frame plan).Gives (fun _ => closeCycle c) env fun t env' =>
      Ty.Firm φ t ∧ Found plan env (.ref c.name) t env' := by
  have hfound : ∀ {env' : Env}, env'.Kept plan → env'.isCircular c.name →
      (∀ N : Naming, N.Completes φ env' → N.bound c.name = Ty.never) →
      (∀ N : Naming, (env'.tally N).Perm (env.tally N)) →
      Found plan env (.ref c.name) Ty.never env' := by
    intro env' hi' hcirc hb ht
    refine ⟨hb, fun b hb' hn => ?_, fun n hn _ => ?_, fun N _ => ht N⟩
    · rw [← List.mem_singleton.mp hn, isCircular_of_mem hi'.apart hb'] at hcirc
      cases hbp : b.progress with
      | waiting recipe =>
        rw [((hi'.cell b hb').planned hbp).2] at hcirc
        cases hcirc
      | _ => rfl
    · rw [List.mem_singleton.mp hn]
      exact .inl hcirc
  unfold closeCycle
  by_cases hn : c.circular
  · simp only [hn, if_true]
    refine Frame.gives_pure hi ⟨Ty.firm_prim _, hfound hi ?_ ?_ fun N => .refl _⟩
    · rw [isCircular_of_mem hi.apart hc, hn]
    · exact fun N hN => hN.circular c hc hn
  · simp only [hn]
    have hrunning := (hi.cell c hc).running hp
    have hkept := hi.closed hc hp (by simpa using hn) ha
    have hg := grows_mark hi hc hp
    have hg' := grows_report (loop hi hc hp ha).report (mark c.name env)
    refine Frame.Gives.modify_bind ⟨rfl, hg⟩ (Frame.Gives.get_bind ?_)
    rw [if_pos (by simpa [update] using hrunning)]
    refine Frame.Gives.modify_bind ⟨rfl, hg'⟩ (Frame.gives_pure hkept
      ⟨Ty.firm_prim _, hfound hkept ?_ ?_ fun N => ?_⟩)
    · exact (isCircular_mark hc c.name).mpr (.inr rfl)
    · exact fun N hN => hN.circular { c with circular := true } (mem_update_self hc rfl) rfl
    · rw [tally_report_lookup N _ rfl]
      exact .of_eq (tally_update fun b _ _ => rfl)

theorem grows_enter (hi : env.Kept plan) (hc : c ∈ env.cells) {recipe : Recipe Ty}
    (hp : c.progress = .waiting recipe) : env.Grows (enter c.name env) := by
  have hg : env.Grows (env.update c.name fun c => { c with progress := .underWay }) := by
    refine grows_update fun b hb hn => ?_
    rw [eq_of_name_eq hi.apart hb hc hn]
    refine ⟨rfl, ?_, id, fun _ => rfl⟩
    rw [hp]
    exact fun h => by cases h
  exact ⟨hg.cells, hg.diagnostics⟩

theorem isCircular_update (hf : ∀ c, (f c).name = c.name ∧ (f c).circular = c.circular)
    (n : String) : (env.update name f).isCircular n = env.isCircular n := by
  unfold isCircular
  rw [find?_update fun c => (hf c).1]
  cases env.find? n with
  | none => rfl
  | some b => by_cases hb : b.name = name <;> simp [hb, hf]

theorem Kept.not_running (hi : env.Kept plan) (hc : c ∈ env.cells) {recipe : Recipe Ty}
    (hp : c.progress = .waiting recipe) : c.name ∉ env.resolving := by
  intro hm
  obtain ⟨b, hb, hbn, hbp⟩ := hi.busy _ hm
  rw [eq_of_name_eq hi.apart hb hc hbn, hp] at hbp
  cases hbp

theorem Kept.enter (hi : env.Kept plan) (hc : c ∈ env.cells) {recipe : Recipe Ty}
    (hp : c.progress = .waiting recipe) (ha : env.Awaits plan c.name) :
    (enter c.name env).Kept plan := by
  have hg := grows_enter hi hc hp
  refine ⟨by rw [hg.names]; exact hi.apart, fun n => (hg.isDefined n).trans (hi.known n),
    fun b hb => ?_, fun n hm => ?_, ?_, ?_, hi.duty⟩
  · rcases mem_update (show b ∈ (env.update c.name _).cells from hb) with
      ⟨b', _, hbn, rfl⟩ | ⟨hb, _⟩
    · exact hbn ▸ List.mem_cons_self
    · exact (hi.cell b hb).grow hg fun hu => List.mem_cons_of_mem _ ((hi.cell b hb).running hu)
  · rcases List.mem_cons.mp hm with rfl | hm
    · exact ⟨_, mem_update_self hc rfl, rfl, rfl⟩
    · obtain ⟨b, hb, rfl, hbp⟩ := hi.busy n hm
      have hbn : b.name ≠ c.name := fun he => hi.not_running hc hp (he ▸ hm)
      exact ⟨b, mem_update_other hb hbn, rfl, hbp⟩
  · exact List.isChain_cons.mpr ⟨fun u hu => ha u hu, hi.route⟩
  · obtain ⟨loops, hl⟩ := hi.loops
    exact ⟨loops, hl.same rfl (isCircular_update fun _ => ⟨rfl, rfl⟩)⟩

/-- Leaves a recipe with its result in its cell. -/
def filled (name : String) (v : Ty) (env : Env) : Env :=
  (leave env).update name fun c => { c with progress := .settled v }

theorem grows_filled {v : Ty} (hi : env.Kept plan) (hc : c ∈ env.cells) (hn : c.name = name)
    (hp : c.progress = .underWay) : env.Grows (filled name v env) := by
  have hg : env.Grows (env.update name fun c => { c with progress := .settled v }) := by
    refine grows_update fun b hb hbn => ?_
    rw [eq_of_name_eq hi.apart hb hc (hbn.trans hn.symm)]
    refine ⟨rfl, ?_, id, fun _ => rfl⟩
    rw [hp]
    rfl
  exact ⟨hg.cells, hg.diagnostics⟩

/-- The cell itself is marked no more; every other cell under way was so before. -/
theorem Kept.filled {running : List String} {v : Ty} (hi : env.Kept plan) (hc : c ∈ env.cells)
    (hn : c.name = name) (hp : c.progress = .underWay) (hr : env.resolving = name :: running)
    (hnew : name ∉ running)
    (hv : Solved plan (filled name v env) { c with progress := .settled v } v) :
    (filled name v env).Kept plan := by
  have hg := grows_filled (v := v) hi hc hn hp
  have htail : (Env.filled name v env).resolving = running := congrArg List.tail hr
  refine ⟨by rw [hg.names]; exact hi.apart, fun n => (hg.isDefined n).trans (hi.known n),
    fun b hb => ?_, fun n hm => ?_, ?_, ?_, hi.duty⟩
  · rcases mem_update (show b ∈ ((leave env).update name _).cells from hb) with
      ⟨b', hb', hbn, rfl⟩ | ⟨hb, hbn⟩
    · rw [eq_of_name_eq hi.apart hb' hc (hbn.trans hn.symm)]
      exact hv
    · refine (hi.cell b hb).grow hg fun hu => ?_
      have hmem := (hi.cell b hb).running hu
      rw [hr] at hmem
      rw [htail]
      exact (List.mem_cons.mp hmem).resolve_left hbn
  · rw [htail] at hm
    obtain ⟨b, hb, rfl, hbp⟩ := hi.busy n (by rw [hr]; exact List.mem_cons_of_mem _ hm)
    have hbn : b.name ≠ name := fun he => hnew (he ▸ hm)
    have hother : b ∈ (Env.filled name v env).cells := mem_update_other hb hbn
    exact ⟨b, hother, rfl, hbp⟩
  · have hroute := hi.route
    rw [hr] at hroute
    rw [htail]
    exact hroute.tail
  · obtain ⟨loops, hl⟩ := hi.loops
    have hcirc : ∀ n, (Env.filled name v env).isCircular n = (leave env).isCircular n :=
      isCircular_update fun _ => ⟨rfl, rfl⟩
    exact ⟨loops, hl.same rfl hcirc⟩

/-- The value that goes into a cell when its recipe has ended. -/
theorem solved_filled {v : Ty} (hi : env.Kept plan) (hc : c ∈ env.cells) (hn : c.name = name)
    (hp : c.progress = .underWay) (ht : Ty.Firm φ t)
    (hresult : ∀ N : Naming, N.Completes φ env → ((plan.recipe name).under N).result = .ok t)
    (hdone : ∀ n, plan.Edge name n → env.Done plan n)
    (hv : v = if env.isCircular name then Ty.never else t) :
    Solved plan (filled name v env) { c with progress := .settled v } v := by
  subst hn
  have hg := grows_filled (v := v) hi hc rfl hp
  rw [isCircular_of_mem hi.apart hc] at hv
  refine ⟨?_, fun hcirc => ?_, ends_grow hg (.intro _ fun n hn => ?_), fun N hN => ⟨t, ?_, ?_⟩⟩
  · rw [hv]
    split
    · exact Ty.firm_prim _
    · exact ht
  · rw [hv, if_pos hcirc]
  · refine (hdone n hn.1).resolve_left ?_
    rw [hn.2]
    simp
  · exact hresult N (hN.of_grows hg)
  · intro hcirc
    have hcirc : c.circular = false := hcirc
    rw [hv, hcirc]
    rfl

theorem tally_filled {v : Ty} (hi : env.Kept plan) (hc : c ∈ env.cells) (hn : c.name = name)
    (hp : c.progress = .underWay) : (filled name v env).tally N = env.tally N := by
  show ((leave env).update name _).tally N = (leave env).tally N
  refine tally_update fun b hb hbn => ?_
  rw [eq_of_name_eq hi.apart hb hc (hbn.trans hn.symm)]
  simp [Cell.due, hp]

/-- A recipe that starts waits no more. -/
theorem waiting_update_lt (hc : c ∈ env.cells) (hw : c.progress.isWaiting)
    (hf : ∀ c, (f c).progress.isWaiting = false) :
    (env.update c.name f).waiting < env.waiting := by
  simp only [waiting, update, List.countP_map]
  obtain ⟨as, bs, hsplit⟩ := List.append_of_mem hc
  have hle : ∀ cs : List Cell,
      cs.countP ((fun c => c.progress.isWaiting) ∘ fun b => if b.name = c.name then f b else b) ≤
        cs.countP (·.progress.isWaiting) := by
    refine fun cs => List.countP_mono_left fun b _ hb => ?_
    by_cases hbn : b.name = c.name
    · simp [hbn, hf] at hb
    · simpa [hbn] using hb
  have has := hle as
  have hbs := hle bs
  rw [hsplit, List.countP_append, List.countP_append, List.countP_cons, List.countP_cons]
  simp only [Function.comp_apply, hf, hw, if_true, Bool.false_eq_true, if_false] at has hbs ⊢
  omega

theorem Kept.fair (hi : env.Kept plan) (hN : N.Completes φ env) : N.Fair φ plan.known :=
  ⟨fun n => (hN.known n).trans (hi.known n), fun n => (plan.named n).trans, hN.firm,
    fun n hn => hN.missing n ((hi.known n).trans hn)⟩

/-- A recipe runs with its cell marked, and its result is put there. -/
theorem gives_fill {run : Recipe Ty → EnvM Ty} {recipe : Recipe Ty} (hi : env.Kept plan)
    (hc : c ∈ env.cells) (hp : c.progress = .waiting recipe) (ha : env.Awaits plan c.name)
    (hrun : ∀ env' : Env, env'.Kept plan → env'.waiting < env.waiting → env'.Within plan recipe →
      (frame plan).Gives (fun _ => run recipe) env' fun t env'' =>
        Ty.Firm φ t ∧ Ran plan recipe env' t env'') :
    (frame plan).Gives (fun _ => fill run c.name recipe) env fun t env' =>
      Ty.Firm φ t ∧ Found plan env (.ref c.name) t env' ∧ env'.waiting < env.waiting := by
  obtain ⟨rfl, -⟩ := (hi.cell c hc).planned hp
  have hknown := hi.known_of_mem hc
  have henter := grows_enter hi hc hp
  have hi₁ := hi.enter hc hp ha
  have hlt : (enter c.name env).waiting < env.waiting :=
    waiting_update_lt hc (by simp [hp, Progress.isWaiting]) fun _ => rfl
  have hin : (enter c.name env).Within plan (plan.recipe c.name) := by
    intro N hN v hv hk u hu
    cases hu
    exact plan.asked (hi₁.fair hN) hknown hv hk
  refine Settles.modify_bind (settles_outcome (hrun _ hi₁ hlt hin) ?_ fun e env' =>
    ⟨leave env', rfl⟩)
  rintro t env' ⟨hi', ⟨hres, hg⟩, ht, hran⟩
  have hres : env'.resolving = c.name :: env.resolving := hres
  -- The cell is under way as long as its recipe runs.
  obtain ⟨b, hb, hbn, hbp⟩ := hi'.busy c.name (by rw [hres]; exact List.mem_cons_self)
  have hdone : ∀ n, plan.Edge c.name n → env'.Done plan n := by
    intro n hn
    have hN := hi'.completes
    obtain ⟨hk, hasked⟩ := plan.asks (hi'.fair hN) hknown (hran.result _ hN) hn
    exact hran.done _ hN n hasked hk
  refine Settles.modify_bind (Settles.get_bind (Settles.modify_bind (settles_pure ?_)))
  generalize hv : (if (leave env').isCircular c.name then Ty.never else t) = v
  have hsolved := solved_filled hi' hb hbn hbp ht hran.result hdone hv.symm
  have hkept := hi'.filled hb hbn hbp hres (hi.not_running hc hp) hsolved
  have hgf := grows_filled (v := v) hi' hb hbn hbp
  have hcell : { b with progress := .settled v } ∈ (filled c.name v env').cells :=
    mem_update_self hb hbn
  refine ⟨hkept, ⟨congrArg List.tail hres, (henter.trans hg).trans hgf⟩, hsolved.firm,
    ⟨fun N hN => ?_, fun a ha' hn => ?_, fun n hn _ => ?_, fun N hN => ?_⟩,
    Nat.lt_of_le_of_lt (hg.trans hgf).waiting_le hlt⟩
  · exact hbn ▸ hN.settled _ hcell v rfl
  · rw [eq_of_name_eq hkept.apart ha' hcell ((List.mem_singleton.mp hn).trans hbn.symm)]
    rfl
  · rw [List.mem_singleton.mp hn]
    exact .inr (hbn ▸ hsolved.ends)
  · have hN' := hN.of_grows hgf
    have hstart := tally_update_waiting (N := N) (f := fun c => { c with progress := .underWay })
      hi.apart hc fun _ => rfl
    have hend := tally_filled (N := N) (v := v) hi' hb hbn hbp
    refine (List.Perm.of_eq hend).trans ((hran.tally N hN').trans (.trans ?_ hstart.symm))
    simp only [Cell.due, hp]
    exact .refl _

/-- No cell has changed, no duty come up and no name been missed. -/
structure Still (env env' : Env) : Prop where
  cells : env'.cells = env.cells
  duties : env'.duties = env.duties
  missing : env'.missing = env.missing

theorem Still.refl (env : Env) : env.Still env := ⟨rfl, rfl, rfl⟩

theorem Still.trans (h : env.Still env') (h' : env'.Still env'') : env.Still env'' :=
  ⟨h'.cells.trans h.cells, h'.duties.trans h.duties, h'.missing.trans h.missing⟩

theorem still_report (d : Diagnostic) (env : Env) : env.Still (env.report d) := ⟨rfl, rfl, rfl⟩

/-- How a known name came to its type: its recipe ran, it was needed while recipes run, or its cell
was settled before. -/
def Looked (env : Env) (t : Ty) (env' : Env) : Prop :=
  env'.waiting < env.waiting ∨ env.resolving ≠ [] ∨
    env' = env ∧ ∃ c ∈ env.cells, c.progress = .settled t

theorem gives_resolveBy {run : Recipe Ty → EnvM Ty} (hi : env.Kept plan)
    (hrun : ∀ (recipe : Recipe Ty) (env' : Env), recipe.Safe φ (Ty.Firm φ) → env'.Kept plan →
      env'.waiting < env.waiting → env'.Within plan recipe →
      (frame plan).Gives (fun _ => run recipe) env' fun t env'' =>
        Ty.Firm φ t ∧ Ran plan recipe env' t env'')
    (name : String) (span : Option Span) (ha : plan.known name → env.Awaits plan name) :
    (frame plan).Gives (fun _ => resolveBy run name span) env fun t env' =>
      (Ty.Firm φ t ∧ Found plan env (.ref name) t env') ∧
        (plan.known name → Looked env t env') := by
  refine Frame.Gives.get_bind ?_
  cases hf : env.find? name with
  | none =>
    have hunknown : plan.known name = false := by
      rw [← hi.known, isDefined, hf]
      rfl
    have hsame : (reportMissing name span env).resolving = env.resolving ∧
        (reportMissing name span env).cells = env.cells := by
      unfold reportMissing
      split <;> exact ⟨rfl, rfl⟩
    have hstep : (frame plan).Step env (reportMissing name span env) :=
      ⟨hsame.1, grows_reportMissing name span env⟩
    refine Frame.Gives.modify_bind hstep (Frame.gives_pure (hi.reportMissing name span)
      ⟨⟨Ty.firm_prim _, fun N hN => ?_, fun c hc hn => ?_, fun n hn hk => ?_, fun N _ => ?_⟩,
        fun hk => by simp [hunknown] at hk⟩)
    · refine hN.missing name ?_
      rw [hstep.2.isDefined, hi.known, hunknown]
    · have hdef := hi.known_of_mem (hsame.2 ▸ hc)
      rw [List.mem_singleton.mp hn, hunknown] at hdef
      cases hdef
    · rw [List.mem_singleton.mp hn, hunknown] at hk
      cases hk
    · rw [tally_reportMissing]
  | some c =>
    obtain ⟨hc, rfl⟩ := find?_eq_some hf
    have hcell := hi.cell c hc
    have hknown := hi.known_of_mem hc
    dsimp only
    cases hp : c.progress with
    | settled t =>
      have hsolved := hcell.solved hp
      refine Frame.gives_pure hi ⟨⟨hsolved.firm, fun N hN => hN.settled c hc t hp,
        fun b hb hn => ?_, fun n hn _ => ?_, fun N _ => .refl _⟩,
        fun _ => .inr (.inr ⟨rfl, c, hc, hp⟩)⟩
      · rw [eq_of_name_eq hi.apart hb hc (List.mem_singleton.mp hn), hp]
        rfl
      · rw [List.mem_singleton.mp hn]
        exact .inr hsolved.ends
    | underWay =>
      refine (gives_closeCycle hi hc hp (ha hknown)).imp fun t env' _ _ h =>
        ⟨h, fun _ => .inr (.inl ?_)⟩
      exact List.ne_nil_of_mem (hcell.running hp)
    | waiting recipe =>
      have hs : recipe.Safe φ (Ty.Firm φ) := by
        rw [(hcell.planned hp).1]
        exact plan.safe hknown
      refine (gives_fill hi hc hp (ha hknown) fun env' => hrun recipe env' hs).imp ?_
      exact fun t env' _ _ h => ⟨⟨h.1, h.2.1⟩, fun _ => .inl h.2.2⟩

/-- As many recipes can nest as there are waiting. -/
theorem gives_resolveWithin (hi : env.Kept plan) (hw : env.waiting ≤ n) (name : String)
    (span : Option Span) (ha : plan.known name → env.Awaits plan name) :
    (frame plan).Gives (fun _ => resolveWithin n name span) env fun t env' =>
      (Ty.Firm φ t ∧ Found plan env (.ref name) t env') ∧
        (plan.known name → Looked env t env') := by
  induction n generalizing env name span with
  | zero => exact gives_resolveBy hi (fun _ _ _ _ hlt => by omega) name span ha
  | succ n ih =>
    refine gives_resolveBy hi (fun recipe env' hs hi' hlt hin => ?_) name span ha
    refine gives_run (n := n) (fun name span env'' hi'' hw'' ha'' => ?_) hs hi' (by omega) hin
    exact (ih hi'' hw'' name span ha'').imp fun _ _ _ _ h => h.1

theorem resolves_resolveWithin (n : Nat) : Resolves plan n (resolveWithin n) :=
  fun name span _ hi hw ha => (gives_resolveWithin hi hw name span ha).imp fun _ _ _ _ h => h.1

/-- Outside any recipe every name may be asked for. -/
theorem awaits_of_resting (h : env.resolving = []) (n : String) : env.Awaits plan n := by
  intro u hu
  rw [h] at hu
  cases hu

theorem gives_resolve (hi : env.Kept plan) (hr : env.resolving = []) (name : String)
    (span : Option Span) :
    (frame plan).Gives (fun _ => Env.resolve name span) env fun t env' =>
      Ty.Firm φ t ∧ Found plan env (.ref name) t env' :=
  Frame.Gives.get_bind (resolves_resolveWithin _ name span hi env.waiting_le_length
    fun _ => awaits_of_resting hr name)

theorem gives_follow {P : α → Prop} {recipe : Recipe α} (hs : recipe.Safe φ P) (hi : env.Kept plan)
    (hr : env.resolving = []) :
    (frame plan).Gives (fun _ => follow recipe) env fun a env' =>
      P a ∧ Ran plan recipe env a env' :=
  Frame.Gives.get_bind (gives_run (resolves_resolveWithin _) hs hi env.waiting_le_length
    fun _ _ n _ _ => awaits_of_resting hr n)

/-- A reference stands for what a name is bound to, and anything else for itself. -/
theorem gives_unwrap (hi : env.Kept plan) (hr : env.resolving = []) (t : Ty) :
    (frame plan).Gives (fun _ => unwrap t) env fun t' env' =>
      Found plan env t t' env' ∧ (((∀ n, t ≠ .ref n) ∧ t' = t ∧ env' = env) ∨
        ∃ n, t = .ref n ∧ Ty.Firm φ t' ∧ (plan.known n → Looked env t' env')) := by
  refine Frame.Gives.get_bind ?_
  rcases t.ref_or_not_ref with ⟨name, rfl⟩ | hn
  · have hres := gives_resolveWithin hi env.waiting_le_length name none
      fun _ => awaits_of_resting hr name
    refine hres.bind fun t' env' hi' _ h => ?_
    rw [unwrapBy_of_not_ref h.1.1.grounded.not_ref]
    exact Frame.gives_pure hi' ⟨h.1.2, .inr ⟨name, rfl, h.1.1, h.2⟩⟩
  · rw [unwrapBy_of_not_ref hn]
    exact Frame.gives_pure hi ⟨found_self plan env hn, .inl ⟨hn, rfl, rfl⟩⟩

end Env
end ShapeCheck
