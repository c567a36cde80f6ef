import ShapeCheck.Env.Basic
import ShapeCheck.Fit.Check

/-!
Resolving names. A name needed while its own recipe runs is circular: it is reported once with
the names on the way round, and stands for `never`. An undefined name is reported once and
stands for `any`.

Recipes nest at most as deep as there are cells, since each one that starts takes a waiting
cell.
-/

namespace ShapeCheck
namespace Env

/-- A way to resolve a name. -/
abbrev Resolver := String → Option Span → EnvM Ty

/-- A computation's outcome as a value. -/
def outcome {α : Type} (act : EnvM α) : EnvM (Except Fault α) :=
  tryCatch (Except.ok <$> act) fun e => pure (.error e)

/-- The problem of an undefined name. -/
def unknownName (name : String) (span : Option Span) : Diagnostic :=
  .plain .unresolvedReference ("Cannot find name '" ++ name ++ "'.") span

/-- Reports an undefined name, the first time. -/
def reportMissing (name : String) (span : Option Span) (env : Env) : Env :=
  if env.missing.contains name then env
  else { env with missing := name :: env.missing }.report (unknownName name span)

/-- The names from a running one to the innermost, and round to it again. -/
def cycle (running : List String) (name : String) : List String :=
  name :: (running.takeWhile (· ≠ name)).reverse ++ [name]

/-- The problem of a name that is needed for its own definition, by way of the given names. -/
def circularName (name : String) (span : Option Span) (route : List String) : Diagnostic where
  kind := .circularAlias
  message := "Type alias '" ++ name ++ "' circularly references itself."
  span := span
  expected := none
  actual := none
  notes := ["cycle: " ++ " -> ".intercalate route]

/-- A name was needed for its own definition. A cell whose recipe stopped at a fault looks the
same, except that the recipe runs no more. -/
def closeCycle (cell : Cell) : EnvM Ty := do
  if cell.circular then pure Ty.never
  else
    modify (update cell.name fun c => { c with circular := true })
    let running := (← get).resolving
    if running.contains cell.name then
      modify (report (circularName cell.name cell.span (cycle running cell.name)))
      pure Ty.never
    else throw (.abandoned cell.name)

/-- Starts a recipe. -/
def enter (name : String) (env : Env) : Env :=
  let started := env.update name fun c => { c with progress := .underWay }
  { started with resolving := name :: env.resolving }

/-- Leaves the innermost recipe. -/
def leave (env : Env) : Env := { env with resolving := env.resolving.tail }

/-- Runs the recipe of a cell and fills the cell, by `never` if the name turned out to be
circular. -/
def fill (run : Recipe Ty → EnvM Ty) (name : String) (recipe : Recipe Ty) : EnvM Ty := do
  modify (enter name)
  let result ← outcome (run recipe)
  modify leave
  match result with
  | .error e => throw e
  | .ok type =>
    let value := if (← get).isCircular name then Ty.never else type
    modify (update name fun c => { c with progress := .settled value })
    pure value

/-- Resolves a name, with `run` for a recipe that has to run first. -/
def resolveBy (run : Recipe Ty → EnvM Ty) : Resolver := fun name span => do
  match (← get).find? name with
  | none => modify (reportMissing name span); pure Ty.any
  | some cell =>
    match cell.progress with
    | .settled type => pure type
    | .underWay => closeCycle cell
    | .waiting recipe => fill run name recipe

/-- Follows references, each name once; a name met again stands for `never`. -/
def unwrapBy (resolve : Resolver) : Nat → List String → Ty → EnvM Ty
  | 0, seen, .ref name => if seen.contains name then pure Ty.never else throw .depthExceeded
  | fuel + 1, seen, .ref name =>
    if seen.contains name then pure Ty.never
    else do unwrapBy resolve fuel (name :: seen) (← resolve name none)
  | _, _, t => pure t

/-- The number of names that references can lead through. -/
def chainBound (env : Env) : Nat := env.cells.length + 1

end Env

/-- Runs a recipe, with a way to resolve the names it asks for. -/
def Recipe.run {α : Type} (resolve : Env.Resolver) : Recipe α → EnvM α
  | .done r => ExceptT.mk (pure r)
  | .resolve name span next => do (next (← Env.outcome (resolve name span))).run resolve
  | .unwrap type next => do
    let bound := (← get).chainBound
    (next (← Env.outcome (Env.unwrapBy resolve bound [] type))).run resolve
  | .isDefined name next => do (next ((← get).isDefined name)).run resolve
  | .report problem next => do modify (Env.report problem); next.run resolve
  | .postpone duty next => do modify (Env.postpone duty); next.run resolve

namespace Env

/-- Resolves a name by recipes that nest at most so deep. -/
def resolveWithin : Nat → String → Option Span → EnvM Ty
  | 0, name, span => resolveBy (fun _ => throw .depthExceeded) name span
  | fuel + 1, name, span => resolveBy (Recipe.run (resolveWithin fuel)) name span

/-- The type a name is bound to. -/
def resolve : Resolver := fun name span => do
  resolveWithin (← get).cells.length name span

/-- What a reference stands for in the end; other types stand for themselves. -/
def unwrap (t : Ty) : EnvM Ty := do
  let env ← get
  unwrapBy (resolveWithin env.cells.length) env.chainBound [] t

/-- Runs a recipe outside any definition. -/
def follow {α : Type} (recipe : Recipe α) : EnvM α := do
  recipe.run (resolveWithin (← get).cells.length)

/-- Resolves names in turn. -/
def resolveEach : List String → EnvM (List (String × Ty))
  | [] => pure []
  | n :: ns => do
    let t ← resolve n none
    return (n, t) :: (← resolveEach ns)

/-- Resolves every defined name, in the order of definition. -/
def resolveAll : EnvM (List (String × Ty)) := do
  resolveEach (← get).names

/-- Surroundings in which references stand for what the environment binds them to. -/
def surroundings (variance : Variance) (memoize : Bool) : Surroundings Env where
  variance := variance
  memoize := memoize
  unwrap := unwrap
  objectOf := fun fs index => Ty.objectOf fs index none

end Env

/-- How a pass looks up the names of its program. -/
class Lookup where
  /-- The type a name is bound to. -/
  resolve : Env.Resolver
  /-- What a reference stands for in the end. -/
  unwrap : Ty → EnvM Ty
  /-- The type that a recipe comes to. -/
  follow : Recipe Ty → EnvM Ty

/-- Names are looked up in the environment, and nobody watches. -/
instance : Lookup := ⟨Env.resolve, Env.unwrap, Env.follow⟩

/-- Surroundings in which references stand for what they are looked up as. -/
def Lookup.surroundings [Lookup] (variance : Variance) (memoize : Bool) : Surroundings Env :=
  { Env.surroundings variance memoize with unwrap := Lookup.unwrap }

end ShapeCheck
