import ShapeCheck.Proofs.Abreast
import ShapeCheck.Proofs.Pass.Tandem

/-! Two passes whose environments belong together, and what that takes to stay so. -/

namespace ShapeCheck.Pass

/-- What makes two passes go the same way: environments that belong together stay so, whatever is
looked up or reported, and what is on record does not count unless verdicts are kept. -/
structure Link (L L' : Lookup) (s : Setting) where
  Lost : Fault → Prop
  exact : Prop
  World : Env → Env → Prop
  Nodes : List (NodeKind × Ty) → List (NodeKind × Ty) → Prop
  memoize : s.config.memoize.holds → exact
  unwrap : ∀ t, Abreast Lost World (L.unwrap t) (L'.unwrap t)
  resolve : ∀ name span, Abreast Lost World (L.resolve name span) (L'.resolve name span)
  follow : ∀ recipe, Abreast Lost World (L.follow recipe) (L'.follow recipe)
  report : ∀ {env env' : Env} (d : Diagnostic), World env env' →
    World (env.report d) (env'.report d)
  duties : ∀ {env env' : Env}, World env env' → env'.duties = env.duties
  names : ∀ {env env' : Env}, World env env' → env'.cells.length = env.cells.length
  record : ∀ {ns ns' : List (NodeKind × Ty)} (n : NodeKind × Ty), Nodes ns ns' →
    Nodes (ns ++ [n]) (ns' ++ [n])

namespace Link
variable {L L' : Lookup} {s : Setting} (K : Link L L' s) {α : Type}

/-- Passes that belong together. -/
structure Joins (p q : Pass) : Prop where
  checks : p.checks.Alike K.exact K.World q.checks
  scope : q.scope = p.scope
  aliases : q.aliases = p.aliases
  nodes : K.Nodes p.nodes q.nodes

variable {K}

theorem Joins.readsAlike {p q : Pass} (h : K.Joins p q) : ReadsAlike p q :=
  ⟨h.scope, K.duties h.checks.world, K.names h.checks.world⟩

theorem abreast_checking {act act' : CheckM Env α}
    (h : Abreast K.Lost (CheckState.Alike K.exact K.World) act act') :
    Abreast K.Lost K.Joins (Pass.checking act) (Pass.checking act') := by
  intro p q hpq r p' hrun hr
  have hon : (Pass.checking act).run.run p =
      ((act.run.run p.checks).1, { p with checks := (act.run.run p.checks).2 }) := rfl
  rcases hact : act.run.run p.checks with ⟨r', checks⟩
  rw [hon, hact] at hrun
  cases hrun
  obtain ⟨checks', hact', hc⟩ := h hpq.checks hact hr
  refine ⟨{ q with checks := checks' }, ?_, hc, hpq.scope, hpq.aliases, hpq.nodes⟩
  show ((act'.run.run q.checks).1, { q with checks := (act'.run.run q.checks).2 }) = _
  rw [hact']

theorem abreast_naming {act act' : EnvM α} (h : Abreast K.Lost K.World act act') :
    Abreast K.Lost K.Joins (naming act) (naming act') := abreast_checking h.inWorld

theorem Joins.note {p q : Pass} (h : K.Joins p q) (name : String) (t : Ty) :
    K.Joins (if (p.aliases.lookup name).isSome then p
        else { p with aliases := p.aliases ++ [(name, t)] })
      (if (q.aliases.lookup name).isSome then q
        else { q with aliases := q.aliases ++ [(name, t)] }) := by
  rw [h.aliases]
  split
  · exact h
  · exact ⟨h.checks, h.scope, rfl, h.nodes⟩

/-- Linked passes go the same way. -/
def tandem (K : Link L L' s) : Tandem L L' s where
  checks := abreastMirror K.Lost K.memoize K.unwrap rfl rfl rfl
  Matches := Abreast K.Lost K.Joins
  result := abreast_pure
  fault := abreast_throw
  seq := Abreast.bind
  reading h := abreast_get_bind fun p q hpq => h p q hpq.readsAlike
  checking := abreast_checking
  report d := abreast_naming (abreast_modify fun _ _ => K.report d)
  record kind t := abreast_modify fun _ _ h =>
    ⟨h.checks, h.scope, h.aliases, K.record (kind, t) h.nodes⟩
  following recipe := abreast_naming (K.follow recipe)
  resolving name span := abreast_naming (K.resolve name span)
  binding name t := abreast_modify fun _ _ h =>
    ⟨h.checks, congrArg (·.bind name t) h.scope, h.aliases, h.nodes⟩
  noting name t := abreast_modify fun _ _ h => h.note name t

end Link
end ShapeCheck.Pass
