import ShapeCheck.Call.Overload
import ShapeCheck.Call.Receiver
import ShapeCheck.Env.Resolve
import ShapeCheck.Scope
import ShapeCheck.Tree.Build

/-! What a pass over programs carries: names, verdicts, values in scope, and what it has found
so far. -/

namespace ShapeCheck

structure Pass where
  checks : CheckState Env
  scope : Scope
  /-- The types of nodes, in the order in which they became known. -/
  nodes : List (NodeKind × Ty)
  /-- The types of aliases and interfaces, each name once. -/
  aliases : List (String × Ty)

abbrev PassM := ExceptT Fault (StateM Pass)

/-- The settings of a pass and how deep its checks may go. -/
structure Setting where
  config : Config
  depth : Nat

variable [Lookup]

def Setting.surroundings (s : Setting) : Surroundings Env :=
  Lookup.surroundings s.config.variance s.config.memoize.holds

/-- The check of a pass. -/
def Setting.ask (s : Setting) : Ask Env := check s.surroundings s.depth

namespace Pass

def empty : Pass := ⟨⟨Memo.empty, Env.empty⟩, Scope.empty, [], []⟩

instance : Inhabited Pass := ⟨empty⟩

def env (p : Pass) : Env := p.checks.world

def diagnostics (p : Pass) : List Diagnostic := p.env.diagnostics

/-- Runs a check on the state of the pass. -/
def checking {α : Type} (act : CheckM Env α) : PassM α :=
  ExceptT.mk fun p =>
    let (result, checks) := act.run.run p.checks
    (result, { p with checks := checks })

/-- Runs a computation on the environment of the pass. -/
def naming {α : Type} (act : EnvM α) : PassM α := checking (CheckM.inWorld act)

/-- Runs a recipe in the environment of the pass. -/
def following (recipe : Recipe Ty) : PassM Ty := naming (Lookup.follow recipe)

def report (d : Diagnostic) : PassM Unit := naming (modify (Env.report d))

def record (kind : NodeKind) (t : Ty) : PassM Unit :=
  modify fun p => { p with nodes := p.nodes ++ [(kind, t)] }

/-- Binds a value name. Binding it again is reported, and the new type counts. -/
def bindValue (name : String) (t : Ty) (span : Option Span) : PassM Unit := do
  if (← get).scope.contains name then
    report (.plain .typeMismatch ("Cannot redeclare block-scoped variable '" ++ name ++ "'.") span)
  modify fun p => { p with scope := p.scope.bind name t }

/-- Notes the type of an alias, the first time. -/
def noteAlias (name : String) (t : Ty) : PassM Unit :=
  modify fun p =>
    if (p.aliases.lookup name).isSome then p else { p with aliases := p.aliases ++ [(name, t)] }

end Pass
end ShapeCheck
