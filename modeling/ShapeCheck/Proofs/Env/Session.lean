import Mathlib.Logic.Relation
import ShapeCheck.Proofs.Env.Resolve

/-! An environment that serves requests, step by step. Each step starts or ends a recipe, looks at
a cell or hands a result back to what waits for it. The steps come to the same answers and leave
the same environment as the computations that serve the requests. -/

namespace ShapeCheck
namespace Env

/-- A request to an environment. -/
inductive Request where
  | define (name : String) (recipe : Recipe Ty) (span : Option Span)
  | resolve (name : String) (span : Option Span)
  | unwrap (type : Ty)
  | resolveAll

inductive Reply where
  | defined
  | type (t : Ty)
  | types (ts : List (String × Ty))

namespace Request

/-- Defines a name by a type that is there already. -/
def defineType (name : String) (type : Ty) (span : Option Span) : Request :=
  .define name (pure type) span

def serve : Request → EnvM Reply
  | .define name recipe span => do Env.define name recipe span; return .defined
  | .resolve name span => return .type (← Env.resolve name span)
  | .unwrap t => return .type (← Env.unwrap t)
  | .resolveAll => return .types (← Env.resolveAll)

/-- Serves requests in turn, whatever comes of them. -/
def serveAll : List Request → Env → List (Except Fault Reply) × Env
  | [], env => ([], env)
  | request :: requests, env =>
    let (answer, env) := request.serve.run.run env
    let (answers, env) := serveAll requests env
    (answer :: answers, env)

end Request

/-- What is worth noting about a session. -/
inductive Event where
  /-- The recipe of a name starts. -/
  | started (name : String)
  /-- A name that is defined is resolved to a type. -/
  | gave (name : String) (type : Ty)
  /-- A name is reported as circular. -/
  | circular (name : String) (problem : Diagnostic)
  /-- A name is reported as undefined. -/
  | unknown (name : String) (problem : Diagnostic)
  /-- A recipe reports a problem. -/
  | told (problem : Diagnostic)

/-- What is done next. -/
inductive Task where
  | rest
  | call (name : String) (span : Option Span)
  | work (recipe : Recipe Ty)
  | chase (fuel : Nat) (seen : List String) (type : Ty)
  | back (result : Except Fault Ty)

/-- What waits for a result. -/
inductive Wait where
  | recipe (next : Except Fault Ty → Recipe Ty)
  | cell (name : String)
  | chain (fuel : Nat) (seen : List String)
  /-- A request for one type. -/
  | one
  /-- A request for the types of all names, those before the name being given. -/
  | each (name : String) (given : List (String × Ty)) (names : List String)

structure Session where
  env : Env
  task : Task
  waits : List Wait
  log : List Event
  todo : List Request
  answers : List (Except Fault Reply)

namespace Session

def start (requests : List Request) : Session := ⟨Env.empty, .rest, [], [], requests, []⟩

inductive Step : Session → Session → Prop
  -- A request is taken up.
  | define {s todo name recipe span} (ht : s.task = .rest)
      (hd : s.todo = .define name recipe span :: todo) (hn : s.env.isDefined name = false) :
    Step s { s with
      env.cells := s.env.cells ++ [⟨name, span, .waiting recipe, false⟩]
      todo := todo
      answers := s.answers ++ [.ok .defined] }
  | redefine {s todo name recipe span} (ht : s.task = .rest)
      (hd : s.todo = .define name recipe span :: todo) (hn : s.env.isDefined name = true) :
    Step s { s with
      todo := todo
      answers := s.answers ++ [.error (.defect (.alreadyDefined name))] }
  | resolve {s todo name span} (ht : s.task = .rest) (hd : s.todo = .resolve name span :: todo) :
    Step s { s with task := .call name span, waits := [.one], todo := todo }
  | unwrap {s todo t} (ht : s.task = .rest) (hd : s.todo = .unwrap t :: todo) :
    Step s { s with task := .chase s.env.chainBound [] t, waits := [.one], todo := todo }
  | resolveAll {s todo name names} (ht : s.task = .rest) (hd : s.todo = .resolveAll :: todo)
      (hn : s.env.names = name :: names) :
    Step s { s with task := .call name none, waits := [.each name [] names], todo := todo }
  | resolveNone {s todo} (ht : s.task = .rest) (hd : s.todo = .resolveAll :: todo)
      (hn : s.env.names = []) :
    Step s { s with todo := todo, answers := s.answers ++ [.ok (.types [])] }
  -- A name is looked up.
  | unknown {s name span} (ht : s.task = .call name span) (hf : s.env.find? name = none)
      (hm : name ∉ s.env.missing) :
    Step s { s with
      env := reportMissing name span s.env
      task := .back (.ok Ty.any)
      log := s.log ++ [.unknown name (unknownName name span)] }
  | unknownAgain {s name span} (ht : s.task = .call name span) (hf : s.env.find? name = none)
      (hm : name ∈ s.env.missing) : Step s { s with task := .back (.ok Ty.any) }
  | settled {s name span cell t} (ht : s.task = .call name span)
      (hf : s.env.find? name = some cell) (hp : cell.progress = .settled t) :
    Step s { s with task := .back (.ok t), log := s.log ++ [.gave name t] }
  | circularAgain {s name span cell} (ht : s.task = .call name span)
      (hf : s.env.find? name = some cell) (hp : cell.progress = .underWay)
      (hc : cell.circular = true) :
    Step s { s with task := .back (.ok Ty.never), log := s.log ++ [.gave name Ty.never] }
  | circular {s name span cell problem} (ht : s.task = .call name span)
      (hf : s.env.find? name = some cell) (hp : cell.progress = .underWay)
      (hc : cell.circular = false) (hr : name ∈ s.env.resolving)
      (hd : problem = circularName name cell.span (cycle s.env.resolving name)) :
    Step s { s with
      env := (mark name s.env).report problem
      task := .back (.ok Ty.never)
      log := s.log ++ [.circular name problem, .gave name Ty.never] }
  | abandoned {s name span cell} (ht : s.task = .call name span)
      (hf : s.env.find? name = some cell) (hp : cell.progress = .underWay)
      (hc : cell.circular = false) (hr : name ∉ s.env.resolving) :
    Step s { s with env := mark name s.env, task := .back (.error (.abandoned name)) }
  | enter {s name span cell recipe} (ht : s.task = .call name span)
      (hf : s.env.find? name = some cell) (hp : cell.progress = .waiting recipe) :
    Step s { s with
      env := Env.enter name s.env
      task := .work recipe
      waits := .cell name :: s.waits
      log := s.log ++ [.started name] }
  -- A recipe runs.
  | done {s r} (ht : s.task = .work (.done r)) : Step s { s with task := .back r }
  | askName {s name span next} (ht : s.task = .work (.resolve name span next)) :
    Step s { s with task := .call name span, waits := .recipe next :: s.waits }
  | askType {s t next} (ht : s.task = .work (.unwrap t next)) :
    Step s { s with task := .chase s.env.chainBound [] t, waits := .recipe next :: s.waits }
  | askKnown {s name next} (ht : s.task = .work (.isDefined name next)) :
    Step s { s with task := .work (next (s.env.isDefined name)) }
  | report {s problem next} (ht : s.task = .work (.report problem next)) :
    Step s { s with
      env := s.env.report problem
      task := .work next
      log := s.log ++ [.told problem] }
  | postpone {s duty next} (ht : s.task = .work (.postpone duty next)) :
    Step s { s with env := s.env.postpone duty, task := .work next }
  -- References are followed.
  | arrive {s fuel seen t} (ht : s.task = .chase fuel seen t) (hn : ∀ n, t ≠ .ref n) :
    Step s { s with task := .back (.ok t) }
  | turn {s fuel seen name} (ht : s.task = .chase fuel seen (.ref name)) (hs : name ∈ seen) :
    Step s { s with task := .back (.ok Ty.never) }
  | tire {s seen name} (ht : s.task = .chase 0 seen (.ref name)) (hs : name ∉ seen) :
    Step s { s with task := .back (.error .depthExceeded) }
  | hop {s fuel seen name} (ht : s.task = .chase (fuel + 1) seen (.ref name)) (hs : name ∉ seen) :
    Step s { s with task := .call name none, waits := .chain fuel (name :: seen) :: s.waits }
  -- A result is handed back.
  | answerRecipe {s waits r next} (ht : s.task = .back r) (hw : s.waits = .recipe next :: waits) :
    Step s { s with task := .work (next r), waits := waits }
  | answerChain {s waits t fuel seen} (ht : s.task = .back (.ok t))
      (hw : s.waits = .chain fuel seen :: waits) :
    Step s { s with task := .chase fuel seen t, waits := waits }
  | breakChain {s waits e fuel seen} (ht : s.task = .back (.error e))
      (hw : s.waits = .chain fuel seen :: waits) : Step s { s with waits := waits }
  | fill {s waits t name value} (ht : s.task = .back (.ok t)) (hw : s.waits = .cell name :: waits)
      (hv : value = if s.env.isCircular name then Ty.never else t) :
    Step s { s with
      env := filled name value s.env
      task := .back (.ok value)
      waits := waits
      log := s.log ++ [.gave name value] }
  | fail {s waits e name} (ht : s.task = .back (.error e)) (hw : s.waits = .cell name :: waits) :
    Step s { s with env := leave s.env, waits := waits }
  | answerOne {s r} (ht : s.task = .back r) (hw : s.waits = [.one]) :
    Step s { s with task := .rest, waits := [], answers := s.answers ++ [r.map .type] }
  | answerNext {s t name given other names} (ht : s.task = .back (.ok t))
      (hw : s.waits = [.each name given (other :: names)]) :
    Step s { s with
      task := .call other none
      waits := [.each other (given ++ [(name, t)]) names] }
  | answerAll {s t name given} (ht : s.task = .back (.ok t))
      (hw : s.waits = [.each name given []]) :
    Step s { s with
      task := .rest
      waits := []
      answers := s.answers ++ [.ok (.types (given ++ [(name, t)]))] }
  | answerFault {s e name given names} (ht : s.task = .back (.error e))
      (hw : s.waits = [.each name given names]) :
    Step s { s with task := .rest, waits := [], answers := s.answers ++ [.error e] }

abbrev Reaches : Session → Session → Prop := Relation.ReflTransGen Step

end Session

section
variable {env env' env'' : Env} {name : String} {span : Option Span} {n : Nat} {f : Cell → Cell}
  {act : EnvM Ty} {r : Except Fault Ty} {resolve : Resolver} {run : Recipe Ty → EnvM Ty}
open Session

theorem waiting_update_le (hf : ∀ c, (f c).progress.isWaiting → c.progress.isWaiting) :
    (env.update name f).waiting ≤ env.waiting := by
  simp only [waiting, update, List.countP_map]
  refine List.countP_mono_left fun c _ hc => ?_
  by_cases hn : c.name = name
  · exact hf c (by simpa [hn] using hc)
  · simpa [hn] using hc

/-- Steps lead from a task to a result, whatever waits for it. -/
structure Takes (env : Env) (task : Task) (r : Except Fault Ty) (env' : Env) : Prop where
  waiting : env'.waiting ≤ env.waiting
  reaches : ∀ waits log todo answers, ∃ log',
    Session.Reaches ⟨env, task, waits, log, todo, answers⟩
      ⟨env', .back r, waits, log', todo, answers⟩

/-- The task comes to the result of the computation. -/
def Realizes (env : Env) (task : Task) (act : EnvM Ty) : Prop :=
  ∃ r env', act.run.run env = (r, env') ∧ Takes env task r env'

theorem Takes.of_step {task : Task} (hw : env'.waiting ≤ env.waiting)
    (h : ∀ waits log todo answers, ∃ log', Step ⟨env, task, waits, log, todo, answers⟩
      ⟨env', .back r, waits, log', todo, answers⟩) : Takes env task r env' := by
  refine ⟨hw, fun waits log todo answers => ?_⟩
  obtain ⟨log', hstep⟩ := h waits log todo answers
  exact ⟨log', .single hstep⟩

theorem Takes.head {task task' : Task} (hw : env'.waiting ≤ env.waiting)
    (h : ∀ waits log todo answers, ∃ log', Step ⟨env, task, waits, log, todo, answers⟩
      ⟨env', task', waits, log', todo, answers⟩) (ht : Takes env' task' r env'') :
    Takes env task r env'' := by
  refine ⟨ht.waiting.trans hw, fun waits log todo answers => ?_⟩
  obtain ⟨log', hstep⟩ := h waits log todo answers
  obtain ⟨log'', hrest⟩ := ht.reaches waits log' todo answers
  exact ⟨log'', .head hstep hrest⟩

/-- A task that leaves something waiting for the result of another. -/
theorem Takes.push {task task₁ task₂ : Task} {wait : Wait} {env₁ env₂ : Env}
    {r₁ : Except Fault Ty} (hw : env'.waiting ≤ env.waiting)
    (h : ∀ waits log todo answers, ∃ log', Step ⟨env, task, waits, log, todo, answers⟩
      ⟨env', task₁, wait :: waits, log', todo, answers⟩)
    (ht : Takes env' task₁ r₁ env₁) (hw' : env₂.waiting ≤ env₁.waiting)
    (hback : ∀ waits log todo answers, ∃ log',
      Step ⟨env₁, .back r₁, wait :: waits, log, todo, answers⟩
        ⟨env₂, task₂, waits, log', todo, answers⟩) (ht₂ : Takes env₂ task₂ r env'') :
    Takes env task r env'' := by
  refine ⟨((ht₂.waiting.trans hw').trans ht.waiting).trans hw, fun waits log todo answers => ?_⟩
  obtain ⟨log₁, hstep⟩ := h waits log todo answers
  obtain ⟨log₂, hmid⟩ := ht.reaches (wait :: waits) log₁ todo answers
  obtain ⟨log₃, hstep'⟩ := hback waits log₂ todo answers
  obtain ⟨log₄, hrest⟩ := ht₂.reaches waits log₃ todo answers
  exact ⟨log₄, .head hstep (hmid.trans (.head hstep' hrest))⟩

theorem Takes.refl (r : Except Fault Ty) (env : Env) : Takes env (.back r) r env :=
  ⟨Nat.le_refl _, fun _ log _ _ => ⟨log, .refl⟩⟩

theorem run_fill (recipe : Recipe Ty) (h : (run recipe).run.run (enter name env) = (r, env')) :
    (fill run name recipe).run.run env =
      match r with
      | .ok t =>
        let value := if env'.isCircular name then Ty.never else t
        (.ok value, filled name value env')
      | .error e => (.error e, leave env') := by
  have hout := run_outcome h
  unfold fill
  rw [run_bind]
  show ((outcome (run recipe) >>= _).run.run (enter name env)) = _
  rw [run_bind, hout]
  cases r <;> rfl

theorem realizes_resolveBy
    (hrun : ∀ (recipe : Recipe Ty) (env' : Env), env'.waiting < env.waiting →
      Realizes env' (.work recipe) (run recipe)) (name : String) (span : Option Span) :
    Realizes env (.call name span) (resolveBy run name span) := by
  unfold Realizes resolveBy
  rw [run_get_bind]
  cases hf : env.find? name with
  | none =>
    refine ⟨.ok Ty.any, reportMissing name span env, rfl, ?_⟩
    by_cases hm : name ∈ env.missing
    · have hsame : reportMissing name span env = env := by simp [reportMissing, hm]
      rw [hsame]
      exact .of_step (Nat.le_refl _) fun _ log _ _ => ⟨log, .unknownAgain rfl hf hm⟩
    · exact .of_step (grows_reportMissing name span env).waiting_le
        fun _ _ _ _ => ⟨_, .unknown rfl hf hm⟩
  | some cell =>
    obtain ⟨hmem, rfl⟩ := find?_eq_some hf
    dsimp only
    cases hp : cell.progress with
    | settled t =>
      exact ⟨.ok t, env, rfl, .of_step (Nat.le_refl _) fun _ _ _ _ => ⟨_, .settled rfl hf hp⟩⟩
    | underWay =>
      dsimp only
      unfold closeCycle
      have hmark : (mark cell.name env).waiting ≤ env.waiting := waiting_update_le fun _ => id
      by_cases hc : cell.circular
      · rw [if_pos hc]
        exact ⟨.ok Ty.never, env, rfl,
          .of_step (Nat.le_refl _) fun _ _ _ _ => ⟨_, .circularAgain rfl hf hp hc⟩⟩
      · rw [if_neg hc]
        rw [Bool.not_eq_true] at hc
        by_cases hr : cell.name ∈ env.resolving
        · refine ⟨.ok Ty.never, (mark cell.name env).report (circularName cell.name cell.span
            (cycle env.resolving cell.name)), ?_,
            .of_step hmark fun _ _ _ _ => ⟨_, .circular rfl hf hp hc hr rfl⟩⟩
          rw [run_bind]
          show ((if (mark cell.name env).resolving.contains cell.name then _ else _ :
            EnvM Ty).run.run _) = _
          rw [if_pos (by simpa [mark, update] using hr)]
          rfl
        · refine ⟨.error (.abandoned cell.name), mark cell.name env, ?_,
            .of_step hmark fun _ log _ _ => ⟨log, .abandoned rfl hf hp hc hr⟩⟩
          rw [run_bind]
          show ((if (mark cell.name env).resolving.contains cell.name then _ else _ :
            EnvM Ty).run.run _) = _
          rw [if_neg (by simpa [mark, update] using hr)]
          rfl
    | waiting recipe =>
      have hlt : (enter cell.name env).waiting < env.waiting :=
        waiting_update_lt hmem (by simp [hp, Progress.isWaiting]) fun _ => rfl
      obtain ⟨r, env', hr, ht⟩ := hrun recipe _ hlt
      have hfill := run_fill recipe hr
      cases r with
      | ok t =>
        refine ⟨_, _, hfill, .push hlt.le (fun _ _ _ _ => ⟨_, .enter rfl hf hp⟩) ht ?_
          (fun _ _ _ _ => ⟨_, .fill rfl rfl rfl⟩) (.refl _ _)⟩
        exact waiting_update_le fun _ h => by cases h
      | error e =>
        have hleave : (leave env').waiting ≤ env'.waiting := Nat.le_refl _
        exact ⟨_, _, hfill, .push hlt.le (fun _ _ _ _ => ⟨_, .enter rfl hf hp⟩) ht hleave
          (fun _ log _ _ => ⟨log, .fail rfl rfl⟩) (.refl _ _)⟩

theorem realizes_arrive {t : Ty} (fuel : Nat) (seen : List String) (hn : ∀ name, t ≠ .ref name) :
    Realizes env (.chase fuel seen t) (unwrapBy resolve fuel seen t) := by
  rw [unwrapBy_of_not_ref hn]
  exact ⟨.ok t, env, rfl, .of_step (Nat.le_refl _) fun _ log _ _ => ⟨log, .arrive rfl hn⟩⟩

theorem realizes_turn {seen : List String} (fuel : Nat) (hs : name ∈ seen) :
    Realizes env (.chase fuel seen (.ref name)) (unwrapBy resolve fuel seen (.ref name)) := by
  refine ⟨.ok Ty.never, env, ?_, .of_step (Nat.le_refl _) fun _ log _ _ => ⟨log, .turn rfl hs⟩⟩
  cases fuel <;> rw [unwrapBy, if_pos (by simpa using hs)] <;> rfl

theorem not_ref_or_seen_or_new (seen : List String) (t : Ty) :
    (∀ name, t ≠ .ref name) ∨ (∃ name, t = .ref name ∧ name ∈ seen) ∨
      ∃ name, t = .ref name ∧ name ∉ seen := by
  rcases t.ref_or_not_ref with ⟨name, rfl⟩ | hn
  · by_cases hs : name ∈ seen
    · exact .inr (.inl ⟨name, rfl, hs⟩)
    · exact .inr (.inr ⟨name, rfl, hs⟩)
  · exact .inl hn

/-- The way to resolve a name is realized as long as few enough recipes wait. -/
def Realized (n : Nat) (resolve : Resolver) : Prop :=
  ∀ (name : String) (span : Option Span) {env : Env}, env.waiting ≤ n →
    Realizes env (.call name span) (resolve name span)

theorem realizes_unwrapBy (hr : Realized n resolve) (fuel : Nat) (seen : List String) (t : Ty)
    (hw : env.waiting ≤ n) : Realizes env (.chase fuel seen t) (unwrapBy resolve fuel seen t) := by
  induction fuel generalizing env seen t with
  | zero =>
    rcases not_ref_or_seen_or_new seen t with hn | ⟨name, rfl, hs⟩ | ⟨name, rfl, hs⟩
    · exact realizes_arrive 0 seen hn
    · exact realizes_turn 0 hs
    · refine ⟨.error .depthExceeded, env, ?_,
        .of_step (Nat.le_refl _) fun _ log _ _ => ⟨log, .tire rfl hs⟩⟩
      rw [unwrapBy, if_neg (by simpa using hs)]
      rfl
  | succ fuel ih =>
    rcases not_ref_or_seen_or_new seen t with hn | ⟨name, rfl, hs⟩ | ⟨name, rfl, hs⟩
    · exact realizes_arrive (fuel + 1) seen hn
    · exact realizes_turn (fuel + 1) hs
    · unfold Realizes
      rw [unwrapBy, if_neg (by simpa using hs), run_bind]
      obtain ⟨r, env₁, hrun, ht⟩ := hr name none hw
      rw [hrun]
      cases r with
      | error e =>
        exact ⟨.error e, env₁, rfl, .push (Nat.le_refl _) (fun _ log _ _ => ⟨log, .hop rfl hs⟩) ht
          (Nat.le_refl _) (fun _ log _ _ => ⟨log, .breakChain rfl rfl⟩) (.refl _ _)⟩
      | ok t =>
        obtain ⟨r, env₂, hrest, ht'⟩ := ih (name :: seen) t (ht.waiting.trans hw)
        exact ⟨r, env₂, hrest, .push (Nat.le_refl _) (fun _ log _ _ => ⟨log, .hop rfl hs⟩) ht
          (Nat.le_refl _) (fun _ log _ _ => ⟨log, .answerChain rfl rfl⟩) ht'⟩

theorem realizes_run (hr : Realized n resolve) (recipe : Recipe Ty) (hw : env.waiting ≤ n) :
    Realizes env (.work recipe) (recipe.run resolve) := by
  induction recipe generalizing env with
  | done r =>
    exact ⟨r, env, rfl, .of_step (Nat.le_refl _) fun _ log _ _ => ⟨log, .done rfl⟩⟩
  | resolve name span next ih =>
    obtain ⟨r, env₁, hrun, ht⟩ := hr name span hw
    obtain ⟨r', env₂, hrest, ht'⟩ := ih r (ht.waiting.trans hw)
    refine ⟨r', env₂, ?_, .push (Nat.le_refl _) (fun _ log _ _ => ⟨log, .askName rfl⟩) ht
      (Nat.le_refl _) (fun _ log _ _ => ⟨log, .answerRecipe rfl rfl⟩) ht'⟩
    rw [Recipe.run, run_bind, run_outcome hrun]
    exact hrest
  | unwrap type next ih =>
    obtain ⟨r, env₁, hrun, ht⟩ := realizes_unwrapBy hr env.chainBound [] type hw
    obtain ⟨r', env₂, hrest, ht'⟩ := ih r (ht.waiting.trans hw)
    refine ⟨r', env₂, ?_, .push (Nat.le_refl _) (fun _ log _ _ => ⟨log, .askType rfl⟩) ht
      (Nat.le_refl _) (fun _ log _ _ => ⟨log, .answerRecipe rfl rfl⟩) ht'⟩
    rw [Recipe.run, run_bind]
    show ((outcome (unwrapBy resolve env.chainBound [] type) >>= _).run.run env) = _
    rw [run_bind, run_outcome hrun]
    exact hrest
  | isDefined name next ih =>
    obtain ⟨r, env', hrun, ht⟩ := ih (env.isDefined name) hw
    exact ⟨r, env', hrun, .head (Nat.le_refl _) (fun _ log _ _ => ⟨log, .askKnown rfl⟩) ht⟩
  | report problem next ih =>
    have hle := (grows_report problem env).waiting_le
    obtain ⟨r, env', hrun, ht⟩ := ih (hle.trans hw)
    exact ⟨r, env', hrun, .head hle (fun _ _ _ _ => ⟨_, .report rfl⟩) ht⟩
  | postpone duty next ih =>
    have hle := (grows_postpone duty env).waiting_le
    obtain ⟨r, env', hrun, ht⟩ := ih (hle.trans hw)
    exact ⟨r, env', hrun, .head hle (fun _ log _ _ => ⟨log, .postpone rfl⟩) ht⟩

theorem realized_resolveWithin (n : Nat) : Realized n (resolveWithin n) := by
  induction n with
  | zero => exact fun name span env hw => realizes_resolveBy (fun _ _ hlt => by omega) name span
  | succ n ih =>
    intro name span env hw
    exact realizes_resolveBy (fun recipe env' hlt => realizes_run ih recipe (by omega)) name span

theorem realizes_resolve (env : Env) (name : String) (span : Option Span) :
    Realizes env (.call name span) (Env.resolve name span) :=
  realized_resolveWithin _ name span env.waiting_le_length

theorem realizes_unwrap (env : Env) (t : Ty) :
    Realizes env (.chase env.chainBound [] t) (Env.unwrap t) :=
  realizes_unwrapBy (realized_resolveWithin _) _ [] t env.waiting_le_length

theorem realizes_follow (env : Env) (recipe : Recipe Ty) :
    Realizes env (.work recipe) (Env.follow recipe) :=
  realizes_run (realized_resolveWithin _) recipe env.waiting_le_length

/-- All names are resolved in turn, up to the first that fails. -/
theorem reaches_resolveEach (env : Env) (name : String) (names : List String)
    (given : List (String × Ty)) (log : List Event) (todo : List Request)
    (answers : List (Except Fault Reply)) :
    ∃ r env' log', (resolveEach (name :: names)).run.run env = (r, env') ∧
      Session.Reaches ⟨env, .call name none, [.each name given names], log, todo, answers⟩
        ⟨env', .rest, [], log', todo, answers ++ [r.map fun ts => .types (given ++ ts)]⟩ := by
  induction names generalizing env name given log with
  | nil =>
    obtain ⟨r, env', hrun, ht⟩ := realizes_resolve env name none
    obtain ⟨log', hreach⟩ := ht.reaches [.each name given []] log todo answers
    cases r with
    | ok t =>
      refine ⟨.ok [(name, t)], env', log', ?_, hreach.tail (.answerAll rfl rfl)⟩
      rw [resolveEach, run_bind, hrun]
      rfl
    | error e =>
      refine ⟨.error e, env', log', ?_, hreach.tail (.answerFault rfl rfl)⟩
      rw [resolveEach, run_bind, hrun]
  | cons other names ih =>
    obtain ⟨r, env₁, hrun, ht⟩ := realizes_resolve env name none
    obtain ⟨log₁, hreach⟩ := ht.reaches [.each name given (other :: names)] log todo answers
    cases r with
    | ok t =>
      obtain ⟨r, env₂, log₂, hrest, hreach₂⟩ := ih env₁ other (given ++ [(name, t)]) log₁
      refine ⟨r.map ((name, t) :: ·), env₂, log₂, ?_, ?_⟩
      · rw [resolveEach, run_bind, hrun]
        dsimp only
        rw [run_bind, hrest]
        cases r <;> rfl
      · have hall : r.map (fun ts => Reply.types (given ++ [(name, t)] ++ ts)) =
            (r.map ((name, t) :: ·)).map fun ts => .types (given ++ ts) := by
          cases r <;> simp [Except.map]
        rw [← hall]
        exact hreach.trans (.head (.answerNext rfl rfl) hreach₂)
    | error e =>
      refine ⟨.error e, env₁, log₁, ?_, hreach.tail (.answerFault rfl rfl)⟩
      rw [resolveEach, run_bind, hrun]

/-- A request comes to its answer. -/
theorem reaches_serve (env : Env) (request : Request) (log : List Event) (todo : List Request)
    (answers : List (Except Fault Reply)) :
    ∃ r env' log', request.serve.run.run env = (r, env') ∧
      Session.Reaches ⟨env, .rest, [], log, request :: todo, answers⟩
        ⟨env', .rest, [], log', todo, answers ++ [r]⟩ := by
  cases request with
  | define name recipe span =>
    by_cases hn : env.isDefined name
    · refine ⟨.error (.defect (.alreadyDefined name)), env, log, ?_, .single (.redefine rfl rfl hn)⟩
      show ((if env.isDefined name then _ else _ : EnvM Unit) >>= _).run.run env = _
      rw [if_pos hn]
      rfl
    · rw [Bool.not_eq_true] at hn
      refine ⟨.ok .defined, _, log, ?_, .single (.define rfl rfl hn)⟩
      show ((if env.isDefined name then _ else _ : EnvM Unit) >>= _).run.run env = _
      rw [if_neg (by simp [hn])]
      rfl
  | resolve name span =>
    obtain ⟨r, env', hrun, ht⟩ := realizes_resolve env name span
    obtain ⟨log', hreach⟩ := ht.reaches [.one] log todo answers
    refine ⟨r.map .type, env', log', ?_,
      .head (.resolve rfl rfl) (hreach.tail (.answerOne rfl rfl))⟩
    rw [Request.serve, run_bind, hrun]
    cases r <;> rfl
  | unwrap t =>
    obtain ⟨r, env', hrun, ht⟩ := realizes_unwrap env t
    obtain ⟨log', hreach⟩ := ht.reaches [.one] log todo answers
    refine ⟨r.map .type, env', log', ?_,
      .head (.unwrap rfl rfl) (hreach.tail (.answerOne rfl rfl))⟩
    rw [Request.serve, run_bind, hrun]
    cases r <;> rfl
  | resolveAll =>
    cases hn : env.names with
    | nil =>
      refine ⟨.ok (.types []), env, log, ?_, .single (.resolveNone rfl rfl hn)⟩
      show (((resolveEach env.names) >>= _).run.run env) = _
      rw [hn]
      rfl
    | cons name names =>
      obtain ⟨r, env', log', hrun, hreach⟩ :=
        reaches_resolveEach env name names [] log todo answers
      refine ⟨r.map .types, env', log', ?_, .head (.resolveAll rfl rfl hn) hreach⟩
      show (((resolveEach env.names) >>= _).run.run env) = _
      rw [hn, run_bind, hrun]
      cases r <;> rfl

/-- Requests that are served step by step get the answers of the computations. -/
theorem reaches_serveAll (env : Env) (requests : List Request) (log : List Event)
    (answers : List (Except Fault Reply)) :
    ∃ log', Session.Reaches ⟨env, .rest, [], log, requests, answers⟩
      ⟨(Request.serveAll requests env).2, .rest, [], log', [],
        answers ++ (Request.serveAll requests env).1⟩ := by
  induction requests generalizing env log answers with
  | nil => exact ⟨log, by rw [Request.serveAll, List.append_nil]⟩
  | cons request requests ih =>
    obtain ⟨r, env', log₁, hrun, hreach⟩ := reaches_serve env request log requests answers
    obtain ⟨log₂, hrest⟩ := ih env' log₁ (answers ++ [r])
    refine ⟨log₂, hreach.trans ?_⟩
    simpa [Request.serveAll, hrun] using hrest

end
end Env
end ShapeCheck
