import ShapeCheck.Config
import ShapeCheck.Fit.Memo

/-!
The computation in which checks run. It carries a memo and a world that references are looked up
in, and keeps both when it stops at a fault.
-/

namespace ShapeCheck

/-- The memo of a checker and the world it looks names up in. -/
structure CheckState (σ : Type) where
  memo : Memo
  world : σ

abbrev CheckM (σ : Type) := ExceptT Fault (StateM (CheckState σ))

/-- What the rules need from where they are applied. -/
structure Surroundings (σ : Type) where
  variance : Variance
  /-- Whether verdicts are kept. -/
  memoize : Bool
  /-- Follows references to what they name. -/
  unwrap : Ty → ExceptT Fault (StateM σ) Ty
  /-- An object from fields and an index that its fields must fit. -/
  objectOf : List (Field Ty) → Option (Index Ty) → Except Fault Ty

/-- A question put to a checker. -/
abbrev Ask (σ : Type) := Ty → Ty → CheckM σ Verdict

namespace CheckM
variable {σ α : Type}

/-- Runs a computation on the world. -/
def inWorld (act : ExceptT Fault (StateM σ) α) : CheckM σ α :=
  ExceptT.mk fun s =>
    let (result, world) := act.run.run s.world
    (result, { s with world := world })

def ofExcept (r : Except Fault α) : CheckM σ α := ExceptT.mk (pure r)

def memo : CheckM σ Memo := do return (← get).memo

def onMemo (f : Memo → Memo) : CheckM σ Unit := modify fun s => { s with memo := f s.memo }

/-- The first misfit among questions asked in turn; later ones are not asked. -/
def firstMisfit (f : α → CheckM σ Verdict) : List α → CheckM σ Verdict
  | [] => pure none
  | x :: xs => do
    match ← f x with
    | none => firstMisfit f xs
    | some m => pure (some m)

/-- Whether one of the questions, asked in turn, has a yes; later ones are not asked. -/
def someFits (f : α → CheckM σ Verdict) : List α → CheckM σ Bool
  | [] => pure false
  | x :: xs => do
    match ← f x with
    | none => pure true
    | some _ => someFits f xs

/-- A yes if one of the questions has it, else the first misfit. -/
def bestOf (f : α → CheckM σ Verdict) : List α → CheckM σ Verdict
  | [] => pure none
  | x :: xs => do
    match ← f x with
    | none => pure none
    | some m => if ← someFits f xs then pure none else pure (some m)

/-- A misfit seen from one step further out. -/
def within (segment : Segment) (act : CheckM σ Verdict) : CheckM σ Verdict :=
  (·.map (·.within segment)) <$> act

end CheckM

/-- What a reference stands for; other types stand for themselves. -/
def Surroundings.resolve {σ : Type} (ctx : Surroundings σ) (t : Ty) : CheckM σ Ty :=
  CheckM.inWorld (ctx.unwrap t)

/-- Answers a question from the memo, by assumption, or by `work`, and remembers the answer. -/
def remember {σ : Type} (keep : Bool) (q : Question) (work : CheckM σ Verdict) :
    CheckM σ Verdict := do
  let before ← CheckM.memo
  match if keep then before.verdict? q else none with
  | some v => CheckM.onMemo Memo.hit; pure v
  | none =>
    match before.depth? q with
    | some depth => CheckM.onMemo (Memo.assume depth); pure none
    | none =>
      CheckM.onMemo (Memo.start q)
      let v ← tryCatch work fun fault => do
        CheckM.onMemo (Memo.abandon before)
        throw fault
      CheckM.onMemo (Memo.settle keep before q v)
      pure v

end ShapeCheck
