import ShapeCheck.Fault
import ShapeCheck.Mismatch

/-!
What a checker remembers: verdicts it has given, and the questions it is in the middle of.

A question met again while it is under way is assumed to be answered by yes. A yes that rests on
the assumption of a question further out is not kept, because that question may still fail; a no
is always kept.
-/

namespace ShapeCheck

/-- Whether the source fits the target. -/
structure Question where
  source : Ty
  target : Ty
deriving Repr

/-- Questions are one when their types are equal and the outermost display names agree, since
verdicts show those names. -/
def Question.same (p q : Question) : Bool :=
  p.source.displayName == q.source.displayName && p.target.displayName == q.target.displayName
    && p.source.same q.source && p.target.same q.target

structure Memo where
  verdicts : List (Question × Verdict)
  /-- Questions under way, the innermost first. The depth of one is the number of those further
  out. -/
  pending : List Question
  /-- The least depth of a question assumed so far. -/
  lowest : Option Nat
  hits : Nat
  misses : Nat
deriving Repr

/-- The lesser of two depths, where none lies below every depth. -/
def minDepth : Option Nat → Option Nat → Option Nat
  | none, d => d
  | d, none => d
  | some m, some n => some (min m n)

namespace Memo

def empty : Memo := ⟨[], [], none, 0, 0⟩

instance : Inhabited Memo := ⟨empty⟩

def verdict? (m : Memo) (q : Question) : Option Verdict :=
  (m.verdicts.find? (·.1.same q)).map (·.2)

def depthIn (q : Question) : List Question → Option Nat
  | [] => none
  | p :: ps => if p.same q then some ps.length else depthIn q ps

/-- The depth of a question that is under way. -/
def depth? (m : Memo) (q : Question) : Option Nat := depthIn q m.pending

/-- A verdict was known. -/
def hit (m : Memo) : Memo := { m with hits := m.hits + 1 }

/-- A question under way is taken to hold. -/
def assume (depth : Nat) (m : Memo) : Memo :=
  { m with lowest := minDepth m.lowest (some depth) }

/-- Begins a question. -/
def start (q : Question) (m : Memo) : Memo :=
  { m with pending := q :: m.pending, lowest := none, misses := m.misses + 1 }

/-- Leaves a question without a verdict. -/
def abandon (before : Memo) (m : Memo) : Memo := { m with pending := before.pending }

/-- Whether something assumed since the question began lies outside it. -/
def reliesOutside (before : Memo) (m : Memo) : Bool :=
  match m.lowest with
  | none => false
  | some d => d < before.pending.length

/-- Ends a question that began at `before`, and keeps its verdict if it is a no or rests on
nothing further out. -/
def settle (keep : Bool) (before : Memo) (q : Question) (v : Verdict) (m : Memo) : Memo :=
  let relies := reliesOutside before m
  { m with
    pending := before.pending
    verdicts := if keep && (v.isSome || !relies) then (q, v) :: m.verdicts else m.verdicts
    lowest := if relies then minDepth before.lowest m.lowest else before.lowest }

/-- Forgets every verdict and the counts. -/
def clear (m : Memo) : Memo := { m with verdicts := [], hits := 0, misses := 0 }

end Memo
end ShapeCheck
