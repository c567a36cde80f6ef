import ShapeCheck.Value

/-! Settings of a checker. Switches are kept as they were given and count by whether they hold. -/

namespace ShapeCheck

/-- How parameters compare when one function stands for another: the other way round, or either
way. -/
inductive Variance where
  | contravariant | bivariant
deriving DecidableEq, Repr

def Variance.word : Variance → String
  | .contravariant => "contravariant"
  | .bivariant => "bivariant"

def Variance.ofWord? : String → Option Variance
  | "contravariant" => some .contravariant
  | "bivariant" => some .bivariant
  | _ => none

structure Config where
  variance : Variance
  /-- Whether verdicts are kept for later questions. -/
  memoize : Value
  /-- Whether a `let` without a declared type widens the literals of its initializer. -/
  widenLet : Value
  maxWorkers : Value
deriving Repr

namespace Config

def default : Config := ⟨.contravariant, .bool true, .bool true, .null⟩

instance : Inhabited Config := ⟨default⟩

inductive Error where
  | unknownVariance (value : Value)
  | notPositive (workers : Value)
  | noWorkers
  | notComparable (relation : String) (workers : Value)
deriving Repr

def Error.message : Error → String
  | .unknownVariance v => v.shown ++ " is not a valid ParameterVariance"
  | .notPositive v => "max_workers must be positive, got " ++ v.shown
  | .noWorkers => "max_workers must be greater than 0"
  | .notComparable relation v =>
    "'" ++ relation ++ "' not supported between instances of '" ++ v.kindName ++ "' and 'int'"

/-- Whether a number is below one; none for other values. -/
def belowOne? (v : Value) : Option Bool :=
  v.number?.map fun n =>
    match n.quantity with
    | .finite q => decide (q < 1)
    | .infinite negative => negative

/-- Whether a number is zero or less; none for other values. -/
def atMostZero? (v : Value) : Option Bool :=
  v.number?.map fun n =>
    match n.quantity with
    | .finite q => decide (q ≤ 0)
    | .infinite negative => negative

/-- A given number of workers must be at least one. -/
def checkWorkers (c : Config) : Except Error Config :=
  match c.maxWorkers with
  | .null => .ok c
  | v =>
    match belowOne? v with
    | some true => .error (.notPositive v)
    | some false => .ok c
    | none => .error (.notComparable "<" v)

def varianceOf (settings : List (String × Value)) : Except Error Variance :=
  match settings.lookup "parameter_variance" with
  | none => .ok default.variance
  | some (.text w) =>
    match Variance.ofWord? w with
    | some v => .ok v
    | none => .error (.unknownVariance (.text w))
  | some v => .error (.unknownVariance v)

/-- Settings by key; absent ones have their default and unknown keys are passed over. -/
def ofSettings (settings : List (String × Value)) : Except Error Config :=
  match varianceOf settings with
  | .error e => .error e
  | .ok variance =>
    checkWorkers
      { variance
        memoize := (settings.lookup "memoize").getD default.memoize
        widenLet := (settings.lookup "widen_let_literals").getD default.widenLet
        maxWorkers := (settings.lookup "max_workers").getD default.maxWorkers }

def toSettings (c : Config) : List (String × Value) :=
  [("parameter_variance", .text c.variance.word), ("memoize", c.memoize),
    ("widen_let_literals", c.widenLet), ("max_workers", c.maxWorkers)]

def same (a b : Config) : Bool :=
  a.variance == b.variance && a.memoize.same b.memoize && a.widenLet.same b.widenLet
    && a.maxWorkers.same b.maxWorkers

/-- The workers that a batch uses: those asked for, else those of the settings; there must be
one at least. -/
def workersFor (c : Config) (asked : Value) : Except Error Unit :=
  let workers := match asked with
    | .null => c.maxWorkers
    | v => v
  match workers with
  | .null => .ok ()
  | v =>
    match atMostZero? v with
    | some true => .error .noWorkers
    | some false => .ok ()
    | none => .error (.notComparable "<=" v)

end Config
end ShapeCheck
