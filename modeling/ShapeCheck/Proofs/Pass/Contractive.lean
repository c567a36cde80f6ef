import ShapeCheck.Proofs.Env.Watch
import ShapeCheck.Proofs.Pass.Final
import ShapeCheck.Proofs.Pass.Link

/-! A pass whose lookups are watched raises no alarm, and so does what any pass does. -/

namespace ShapeCheck

/-- The fault that stands for an alarm. -/
def Fault.IsAlarm (e : Fault) : Prop := e = .depthExceeded

theorem abreast_watching {declared : String → Bool} {task : Env → Env.Task} {act : EnvM Ty} :
    Abreast Fault.IsAlarm Eq (Env.watching declared task act) act := by
  rintro env _ rfl r env' hrun hr
  refine ⟨env', Env.run_of_watching hrun fun he => hr _ he rfl, rfl⟩

theorem abreast_unwrap_watched (declared : String → Bool) (t : Ty) :
    Abreast Fault.IsAlarm Eq ((Lookup.watched declared).unwrap t) (Env.unwrap t) := by
  rcases t.ref_or_not_ref with ⟨n, rfl⟩ | hn
  · exact abreast_watching
  · rw [Lookup.unwrap_watched hn, Env.unwrap_eq_pure hn]
    exact abreast_pure t

namespace Pass
variable {declared : String → Bool} {setting : Setting} {p q : Pass}

/-- A pass whose lookups are watched, beside the same one with nobody watching. -/
noncomputable def unwatched (declared : String → Bool) (setting : Setting) :
    Link (Lookup.watched declared) inferInstance setting where
  Lost := Fault.IsAlarm
  exact := True
  World := Eq
  Nodes := Eq
  memoize _ := trivial
  unwrap := abreast_unwrap_watched declared
  resolve _ _ := abreast_watching
  follow _ := abreast_watching
  report d := congrArg (Env.report d)
  duties h := h ▸ rfl
  names h := h ▸ rfl
  record n := congrArg (· ++ [n])

theorem unwatched_joins_iff : (unwatched declared setting).Joins p q ↔ p = q := by
  constructor
  · rintro ⟨⟨hworld, -, hmemo⟩, hscope, haliases, hnodes⟩
    obtain ⟨⟨memo, world⟩, scope, nodes, aliases⟩ := p
    obtain ⟨⟨memo', world'⟩, scope', nodes', aliases'⟩ := q
    cases hworld
    cases hmemo trivial
    cases hscope
    cases haliases
    cases hnodes
    rfl
  · rintro rfl
    exact ⟨⟨rfl, rfl, fun _ => rfl⟩, rfl, rfl, rfl⟩

/-- What looks no names up is the same whether someone watches or not. -/
theorem abreast_self {α : Type} (act : PassM α) :
    Abreast Fault.IsAlarm (unwatched declared setting).Joins act act := by
  intro p q hpq r p' hrun _
  cases unwatched_joins_iff.mp hpq
  exact ⟨p', hrun, unwatched_joins_iff.mpr rfl⟩

theorem abreast_run (program : Program) :
    Abreast Fault.IsAlarm (unwatched declared setting).Joins
      (@run (Lookup.watched declared) setting program) (run setting program) := by
  refine (abreast_self (registerTypes _)).bind fun _ => ?_
  refine Abreast.bind ((unwatched declared setting).tandem.matches_hoistFunctions _) fun _ => ?_
  refine Abreast.bind ((unwatched declared setting).tandem.matches_declareAll _) fun _ => ?_
  exact Abreast.bind (unwatched declared setting).tandem.matches_discharge fun _ => abreast_self _

end Pass

/-- The pass over a program comes to the same end when every step of its lookups is watched: no
alarm is raised. So whenever a name is looked up, a reference followed or a declared type read, all
types that names are bound to, and the type that comes of it, are contractive, and a reference
leads to a name that is declared and on to no other reference. -/
theorem checkProgram_contractive (config : Config) (program : Program) :
    ∃ bound outcome p, outcome ≠ .error .depthExceeded ∧
      (∀ depth, bound ≤ depth →
        (Pass.run ⟨config, depth⟩ program).run.run Pass.empty = (outcome, p) ∧
        (@Pass.run (Lookup.watched program.declares) ⟨config, depth⟩ program).run.run Pass.empty =
          (outcome, p)) ∧
      ∀ report, outcome = .ok report → ∀ c ∈ p.env.cells, ∃ t, c.progress = .settled t ∧
        t.Contractive program.declares := by
  have hwatched := @Pass.settles_run _ (Lookup.watched program.declares) program config
    program.within_features Lookup.agrees_watched
  obtain ⟨bound, outcome, p, hrun, hr⟩ := hwatched
  have hquiet : outcome ≠ .error .depthExceeded := by
    rintro rfl
    exact Features.Err.ne_depthExceeded hr rfl
  refine ⟨bound, outcome, p, hquiet, fun depth hd => ?_, ?_⟩
  · obtain ⟨q, hplain, hq⟩ := Pass.abreast_run program (Pass.unwatched_joins_iff.mpr rfl)
      (hrun depth hd) fun e he ha => hquiet (ha ▸ he)
    cases Pass.unwatched_joins_iff.mp hq
    exact ⟨hplain, hrun depth hd⟩
  · rintro report rfl c hc
    obtain ⟨t, hp, hsolved⟩ := hr.solved hc
    exact ⟨t, hp, hsolved.firm.contractive⟩

end ShapeCheck
