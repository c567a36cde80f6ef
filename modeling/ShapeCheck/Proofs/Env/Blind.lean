import ShapeCheck.Env.Resolve
import ShapeCheck.Proofs.Abreast

/-! Looking names up does not depend on the problems that were reported before. -/

namespace ShapeCheck

/-- The second list is the first one with more put in after a certain part. -/
def Spliced {α : Type} (front block xs ys : List α) : Prop :=
  ∃ later, xs = front ++ later ∧ ys = front ++ block ++ later

theorem spliced_self {α : Type} (front block : List α) :
    Spliced front block front (front ++ block) :=
  ⟨[], (List.append_nil _).symm, (List.append_nil _).symm⟩

theorem Spliced.push {α : Type} {front block xs ys : List α} (h : Spliced front block xs ys)
    (x : α) : Spliced front block (xs ++ [x]) (ys ++ [x]) := by
  obtain ⟨later, rfl, rfl⟩ := h
  exact ⟨later ++ [x], by simp only [List.append_assoc], by simp only [List.append_assoc]⟩

namespace Env
variable {α β : Type} {front block : List Diagnostic} {env env' : Env}

/-- The same environment, but with more problems reported at a certain point. -/
structure Interjects (front block : List Diagnostic) (env env' : Env) : Prop where
  cells : env'.cells = env.cells
  resolving : env'.resolving = env.resolving
  missing : env'.missing = env.missing
  duties : env'.duties = env.duties
  diagnostics : Spliced front block env.diagnostics env'.diagnostics

namespace Interjects

theorem find? (h : Interjects front block env env') (name : String) :
    env'.find? name = env.find? name := by
  rw [Env.find?, h.cells, Env.find?]

theorem isCircular (h : Interjects front block env env') (name : String) :
    env'.isCircular name = env.isCircular name := by
  rw [Env.isCircular, h.find?, Env.isCircular]

theorem update (h : Interjects front block env env') (name : String) (f : Cell → Cell) :
    Interjects front block (env.update name f) (env'.update name f) :=
  { h with cells := by rw [Env.update, h.cells, Env.update] }

theorem report (h : Interjects front block env env') (d : Diagnostic) :
    Interjects front block (env.report d) (env'.report d) :=
  { h with diagnostics := h.diagnostics.push d }

theorem postpone (h : Interjects front block env env') (duty : Obligation) :
    Interjects front block (env.postpone duty) (env'.postpone duty) :=
  { h with duties := congrArg (· ++ [duty]) h.duties }

theorem enter (h : Interjects front block env env') (name : String) :
    Interjects front block (env.enter name) (env'.enter name) :=
  { h.update name _ with resolving := congrArg (name :: ·) h.resolving }

theorem leave (h : Interjects front block env env') : Interjects front block env.leave env'.leave :=
  { h with resolving := congrArg List.tail h.resolving }

theorem reportMissing (h : Interjects front block env env') (name : String) (span : Option Span) :
    Interjects front block (env.reportMissing name span) (env'.reportMissing name span) := by
  unfold Env.reportMissing
  rw [h.missing]
  split
  · exact h
  · have hm : Interjects front block { env with missing := name :: env.missing }
        { env' with missing := name :: env.missing } := { h with missing := rfl }
    exact hm.report _

end Interjects

/-- What comes of a computation does not depend on problems reported before. -/
def Blind (act : EnvM α) : Prop :=
  ∀ front block, Abreast (fun _ => False) (Interjects front block) act act

theorem blind_pure (a : α) : Blind (pure a) := fun _ _ => abreast_pure a

theorem blind_throw (e : Fault) : Blind (throw e : EnvM α) := fun _ _ => abreast_throw e

theorem Blind.bind {act : EnvM α} {f : α → EnvM β} (h : Blind act) (hf : ∀ a, Blind (f a)) :
    Blind (act >>= f) := fun front block => (h front block).bind fun a => hf a front block

theorem blind_modify {f : Env → Env}
    (h : ∀ {front block env env'}, Interjects front block env env' →
      Interjects front block (f env) (f env')) : Blind (modify f) :=
  fun _ _ => abreast_modify fun _ _ => h

/-- The environment may be read, apart from what was reported. -/
theorem blind_get_bind {k : Env → EnvM α}
    (hk : ∀ {front block env env'}, Interjects front block env env' → k env' = k env)
    (h : ∀ env, Blind (k env)) : Blind (get >>= k) := by
  intro front block
  refine abreast_get_bind fun env env' hi => ?_
  rw [hk hi]
  exact h env front block

theorem blind_outcome {act : EnvM α} (h : Blind act) : Blind (outcome act) := by
  intro front block
  rw [outcome, map_eq_pure_bind]
  refine Abreast.tryCatch (fun _ => id) ?_ fun e => abreast_pure _
  exact (h front block).bind fun a => abreast_pure _

theorem blind_closeCycle (cell : Cell) : Blind (closeCycle cell) := by
  unfold closeCycle
  split
  · exact blind_pure _
  · refine (blind_modify (·.update _ _)).bind fun _ => ?_
    refine blind_get_bind (fun h => by simp only [h.resolving]) fun env => ?_
    dsimp only
    split
    · exact (blind_modify (·.report _)).bind fun _ => blind_pure _
    · exact blind_throw _

theorem blind_fill {run : Recipe Ty → EnvM Ty} (hr : ∀ recipe, Blind (run recipe)) (name : String)
    (recipe : Recipe Ty) : Blind (fill run name recipe) := by
  unfold fill
  refine (blind_modify (·.enter name)).bind fun _ => ?_
  refine (blind_outcome (hr recipe)).bind fun result => ?_
  refine (blind_modify (·.leave)).bind fun _ => ?_
  cases result with
  | error e => exact blind_throw e
  | ok type =>
    refine blind_get_bind (fun h => by simp only [h.isCircular]) fun env => ?_
    exact (blind_modify (·.update name _)).bind fun _ => blind_pure _

theorem blind_resolveBy {run : Recipe Ty → EnvM Ty} (hr : ∀ recipe, Blind (run recipe))
    (name : String) (span : Option Span) : Blind (resolveBy run name span) := by
  refine blind_get_bind (fun h => by simp only [h.find?]) fun env => ?_
  cases env.find? name with
  | none => exact (blind_modify (·.reportMissing name span)).bind fun _ => blind_pure _
  | some cell =>
    dsimp only
    cases cell.progress with
    | settled type => exact blind_pure type
    | underWay => exact blind_closeCycle cell
    | waiting recipe => exact blind_fill hr name recipe

theorem blind_unwrapBy {resolve : Resolver} (hr : ∀ name span, Blind (resolve name span))
    (fuel : Nat) (seen : List String) (t : Ty) : Blind (unwrapBy resolve fuel seen t) := by
  fun_induction unwrapBy resolve fuel seen t with
  | case1 => exact blind_pure _
  | case2 => exact blind_throw _
  | case3 => exact blind_pure _
  | case4 fuel seen name _ ih => exact (hr name none).bind ih
  | case5 => exact blind_pure _

end Env

open Env in
theorem Recipe.blind_run {α : Type} {resolve : Resolver}
    (hr : ∀ name span, Blind (resolve name span)) (recipe : Recipe α) :
    Blind (recipe.run resolve) := by
  induction recipe with
  | done r =>
    cases r with
    | ok a => exact blind_pure a
    | error e => exact blind_throw e
  | resolve name span next ih => exact (blind_outcome (hr name span)).bind ih
  | unwrap type next ih =>
    refine blind_get_bind (fun h => by simp only [chainBound, h.cells]) fun env => ?_
    exact (blind_outcome (blind_unwrapBy hr env.chainBound [] type)).bind ih
  | isDefined name next ih =>
    exact blind_get_bind (fun h => by simp only [Env.isDefined, h.find?]) fun env => ih _
  | report problem next ih => exact (blind_modify (·.report problem)).bind fun _ => ih
  | postpone duty next ih => exact (blind_modify (·.postpone duty)).bind fun _ => ih

namespace Env

theorem blind_resolveWithin (fuel : Nat) (name : String) (span : Option Span) :
    Blind (resolveWithin fuel name span) := by
  induction fuel generalizing name span with
  | zero => exact blind_resolveBy (fun _ => blind_throw _) name span
  | succ fuel ih => exact blind_resolveBy (Recipe.blind_run ih) name span

theorem blind_resolve (name : String) (span : Option Span) : Blind (resolve name span) :=
  blind_get_bind (fun h => by simp only [h.cells]) fun env => blind_resolveWithin _ name span

theorem blind_unwrap (t : Ty) : Blind (unwrap t) :=
  blind_get_bind (fun h => by simp only [h.cells, chainBound]) fun env =>
    blind_unwrapBy (blind_resolveWithin env.cells.length) _ [] t

theorem blind_follow {α : Type} (recipe : Recipe α) : Blind (follow recipe) :=
  blind_get_bind (fun h => by simp only [h.cells]) fun env =>
    recipe.blind_run (blind_resolveWithin env.cells.length)

end Env
end ShapeCheck
