import Mathlib.Data.Multiset.AddSub
import Mathlib.Tactic.Abel
import ShapeCheck.Pass.Declare
import ShapeCheck.Proofs.Call.Overload
import ShapeCheck.Proofs.Tree.Build

/-! What every step of a pass keeps to. Names are resolved and checks are right, and in a program
without intersections all problems are accounted for: those that recipes bring, and those that the
pass finds itself. -/

namespace ShapeCheck
variable {φ : Features}

/-- The name is bound to the type for good. -/
def Env.Binds (env : Env) (name : String) (t : Ty) : Prop :=
  ∃ c ∈ env.cells, c.name = name ∧ c.progress = .settled t

theorem Env.Binds.grow {env env' : Env} {name : String} {t : Ty} (hg : env.Grows env')
    (h : env.Binds name t) : env'.Binds name t := by
  obtain ⟨c, hc, rfl, hp⟩ := h
  obtain ⟨c', hc', hcg⟩ := hg.mem hc
  exact ⟨c', hc', hcg.name, hcg.settled hp⟩

/-- Kinds of problems that are neither about circular names nor about indexes. -/
def Diagnostic.Kind.isPlain : Diagnostic.Kind → Bool
  | .circularAlias | .indexSignatureViolation => false
  | _ => true

namespace Pass
variable {plan : Plan φ} {p : Pass} {α : Type} {config : Config} {t : Ty} {variance : Variance}
  {env env' env'' : Env} {own own' : Naming → List Deed} {d : Diagnostic}

/-- The environment has grown, and the problems and duties that have come up are those given,
beside plain ones that the pass has found itself. -/
structure Adds (φ : Features) (own : Naming → List Deed) (env env' : Env) : Prop where
  grows : env.Grows env'
  tally : ¬φ.inter → ∃ said : List Diagnostic, (∀ d ∈ said, d.kind.isPlain) ∧
    ∀ N : Naming, N.Completes φ env' →
      (env'.tally N).Perm (env.tally N ++ own N ++ said.map .say)

theorem adds_of_perm (hg : env.Grows env')
    (h : ∀ N : Naming, N.Completes φ env' → (env'.tally N).Perm (env.tally N ++ own N)) :
    Adds φ own env env' :=
  ⟨hg, fun _ => ⟨[], by simp, fun N hN => by simpa using h N hN⟩⟩

theorem adds_of_evolves (h : Env.Evolves φ env env') : Adds φ (fun _ => []) env env' :=
  adds_of_perm h.grows fun N hN => by simpa using h.tally N hN

theorem Adds.trans (h : Adds φ own env env') (h' : Adds φ own' env' env'') :
    Adds φ (fun N => own N ++ own' N) env env'' := by
  refine ⟨h.grows.trans h'.grows, fun hni => ?_⟩
  obtain ⟨said, hplain, ht⟩ := h.tally hni
  obtain ⟨said', hplain', ht'⟩ := h'.tally hni
  refine ⟨said ++ said', List.forall_mem_append.mpr ⟨hplain, hplain'⟩, fun N hN => ?_⟩
  have hp := ht N (hN.of_grows h'.grows)
  have hp' := ht' N hN
  rw [← Multiset.coe_eq_coe] at hp hp' ⊢
  simp only [List.map_append, ← Multiset.coe_add] at hp hp' ⊢
  rw [hp', hp]
  abel

theorem Adds.imp (h : Adds φ own env env')
    (he : ¬φ.inter → ∀ N : Naming, N.Completes φ env' → own N = own' N) :
    Adds φ own' env env' := by
  refine ⟨h.grows, fun hni => ?_⟩
  obtain ⟨said, hplain, ht⟩ := h.tally hni
  exact ⟨said, hplain, fun N hN => he hni N hN ▸ ht N hN⟩

/-- Between two steps of a pass no recipe runs, and what is known is as it should be. -/
structure Sound (plan : Plan φ) (config : Config) (p : Pass) : Prop where
  checker : Env.Checker plan config.variance p.checks
  scope : ∀ b ∈ p.scope.bindings, Ty.Within φ b.2
  aliases : ∀ a ∈ p.aliases, p.env.Binds a.1 a.2

theorem Sound.idle (hp : p.Sound plan config) : p.env.Idle plan := hp.checker.idle

/-- Declarations may change everything, as long as it stays sound. -/
def openFrame (plan : Plan φ) (config : Config) : Frame Pass where
  Err := φ.Err
  Inv := Sound plan config
  Step p p' := p.env.Grows p'.env ∧ p.aliases ⊆ p'.aliases
  refl p := ⟨.refl p.env, List.Subset.refl _⟩
  trans h h' := ⟨h.1.trans h'.1, List.Subset.trans h.2 h'.2⟩

theorem settles_checking {Err : Fault → Prop} {act : Nat → CheckM Env α}
    {Ok : α → CheckState Env → Prop} (h : Settles Err act p.checks Ok) :
    Settles Err (fun d => checking (act d)) p fun a p' =>
      Ok a p'.checks ∧ p' = { p with checks := p'.checks } := by
  obtain ⟨bound, r, checks, hrun, hr⟩ := h
  refine ⟨bound, r, { p with checks := checks }, fun d hd => ?_, ?_⟩
  · show (((act d).run.run p.checks).1, { p with checks := ((act d).run.run p.checks).2 }) = _
    rw [hrun d hd]
  · cases r with
    | ok a => exact ⟨hr, rfl⟩
    | error e => exact hr

theorem settles_naming {Err : Fault → Prop} {act : EnvM α} {Ok : α → Env → Prop}
    (h : Settles Err (fun _ => act) p.env Ok) :
    Settles Err (fun _ => naming act) p fun a p' =>
      Ok a p'.env ∧ p' = { p with checks := { p.checks with world := p'.env } } := by
  have hin : Settles Err (fun _ => CheckM.inWorld act) p.checks fun a st =>
      Ok a st.world ∧ st = { p.checks with world := st.world } := by
    obtain ⟨bound, r, env, hrun, hr⟩ := h
    refine ⟨bound, r, { p.checks with world := env }, fun d hd => ?_, ?_⟩
    · show ((act.run.run p.env).1, { p.checks with world := (act.run.run p.env).2 }) = _
      rw [hrun d hd]
    · cases r with
      | ok a => exact ⟨hr, rfl⟩
      | error e => exact hr
  refine (settles_checking hin).imp ?_
  rintro a p' ⟨⟨hok, hst⟩, hp⟩
  refine ⟨hok, ?_⟩
  rw [hp] at hst ⊢
  exact congrArg (fun st => { p with checks := st }) hst

/-- The state of a checker after something was done to its environment. -/
theorem checker_of_grows {st : CheckState Env} (hc : Env.Checker plan variance st)
    (hi : env'.Idle plan) (hg : st.world.Grows env') :
    Env.Checker plan variance { st with world := env' } :=
  ⟨hi, hc.pending, fun hni N hN => hc.sound hni N (hN.of_grows hg)⟩

theorem sound_of_grows (hp : p.Sound plan config) (hi : env'.Idle plan) (hg : p.env.Grows env') :
    Sound plan config { p with checks := { p.checks with world := env' } } :=
  ⟨checker_of_grows hp.checker hi hg, hp.scope, fun a ha => (hp.aliases a ha).grow hg⟩

/-- The pass with one problem more. -/
def withReport (d : Diagnostic) (p : Pass) : Pass :=
  { p with checks := { p.checks with world := p.env.report d } }

@[simp]
theorem env_withReport (d : Diagnostic) (p : Pass) : (p.withReport d).env = p.env.report d := rfl

theorem settles_report (Err : Fault → Prop) (d : Diagnostic) (p : Pass) :
    Settles Err (fun _ => report d) p fun _ p' => p' = p.withReport d :=
  ⟨0, .ok (), p.withReport d, fun _ _ => rfl, rfl⟩

theorem Sound.withReport (hp : p.Sound plan config) (hk : d.kind ≠ .circularAlias) :
    (p.withReport d).Sound plan config :=
  sound_of_grows hp ⟨hp.idle.kept.report hk, hp.idle.resting⟩ (Env.grows_report d p.env)

theorem mem_withReport (d : Diagnostic) (p : Pass) : d ∈ (p.withReport d).env.diagnostics :=
  List.mem_append_right _ (List.mem_singleton_self d)

variable [Lookup]

/-- Where the checks of a pass take place. -/
abbrev finiteQuestions (plan : Plan φ) [Lookup.Agrees plan] (config : Config) :
    FiniteQuestions (Lookup.surroundings config.variance config.memoize.holds) :=
  Env.finiteQuestions plan config.variance config.memoize.holds

/-- Checks run recipes of names, and change nothing else that the pass still needs. -/
def frame (plan : Plan φ) [Lookup.Agrees plan] (config : Config) : Frame Pass where
  Err := φ.Err
  Inv := Sound plan config
  Step p p' := (finiteQuestions plan config).Later p.env p'.env ∧
    Adds φ (fun _ => []) p.env p'.env ∧ p.aliases ⊆ p'.aliases
  refl p := ⟨.inr ((finiteQuestions plan config).still_refl p.env), adds_of_evolves (.refl p.env),
    List.Subset.refl _⟩
  trans h h' := ⟨h.1.trans _ h'.1, h.2.1.trans h'.2.1, List.Subset.trans h.2.2 h'.2.2⟩

variable [Lookup.Agrees plan]

/-- What the frame of checks says of its steps is known of the result in the open. -/
theorem opened {act : Nat → PassM α} {Post : α → Pass → Prop}
    (h : (frame plan config).Gives act p Post) :
    (openFrame plan config).Gives act p fun a p' =>
      Post a p' ∧ Adds φ (fun _ => []) p.env p'.env :=
  Settles.imp h fun _ _ h => ⟨h.1, ⟨h.2.1.2.1.grows, h.2.1.2.2⟩, h.2.2, h.2.1.2.1⟩

theorem gives_checking {act : Nat → CheckM Env α} {Post : α → CheckState Env → Prop}
    (hp : p.Sound plan config)
    (h : (Env.checks plan config.variance config.memoize.holds).Gives act p.checks Post) :
    (frame plan config).Gives (fun d => checking (act d)) p fun a p' => Post a p'.checks := by
  refine (settles_checking h).imp ?_
  rintro a p' ⟨⟨hc, hstep, hpost⟩, hp'⟩
  have hscope : p'.scope = p.scope := by rw [hp']
  have haliases : p'.aliases = p.aliases := by rw [hp']
  refine ⟨⟨hc, hscope ▸ hp.scope, fun a ha => ?_⟩,
    ⟨hstep.1, adds_of_evolves hstep.2, haliases ▸ List.Subset.refl _⟩, hpost⟩
  exact (hp.aliases a (haliases ▸ ha)).grow hstep.2.grows

theorem gives_say (hp : p.Sound plan config) (h : d.kind.isPlain) :
    (frame plan config).Gives (fun _ => report d) p fun _ p' => d ∈ p'.env.diagnostics := by
  have hcircular : d.kind ≠ .circularAlias := fun hk => by simp [hk, Diagnostic.Kind.isPlain] at h
  refine (settles_report φ.Err d p).imp ?_
  rintro _ _ rfl
  refine ⟨hp.withReport hcircular, ⟨.inr (Env.still_report d p.env),
    ⟨Env.grows_report d p.env, fun _ => ?_⟩, List.Subset.refl _⟩, mem_withReport d p⟩
  by_cases hl : d.kind.ofLookup
  · refine ⟨[], by simp, fun N _ => ?_⟩
    have htally := Env.tally_report_lookup N p.env hl
    simpa using List.Perm.of_eq htally
  · refine ⟨[d], List.forall_mem_singleton.mpr h, fun N _ => ?_⟩
    have htally := Env.tally_report N p.env (Bool.not_eq_true _ ▸ hl)
    simpa using htally

/-- What is at fault is reported and given a type all the same. -/
theorem gives_reported (hp : p.Sound plan config) (h : d.kind.isPlain) (k : Prim) :
    (frame plan config).Gives (fun _ => do report d; pure (.prim k)) p
      fun t _ => Ty.Within φ t :=
  (gives_say hp h).bind fun _ _ hp' _ _ => Frame.gives_pure hp' (Ty.within_prim k)

theorem gives_record (hp : p.Sound plan config) (kind : NodeKind) (t : Ty) :
    (frame plan config).Gives (fun _ => record kind t) p fun _ p' =>
      p'.env = p.env ∧ p'.aliases = p.aliases :=
  Frame.gives_modify ⟨hp.checker, hp.scope, hp.aliases⟩ ((frame plan config).refl p) ⟨rfl, rfl⟩

end Pass
end ShapeCheck
