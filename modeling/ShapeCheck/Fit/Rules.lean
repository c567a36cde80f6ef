import ShapeCheck.Fit.Members

/-!
The rules of assignability, from the outside of two types to their parts. A rule puts the
questions about the parts to `ask`.
-/

namespace ShapeCheck.Rule
variable {σ : Type} (ctx : Surroundings σ) (ask : Ask σ)

def misfit (source target : Ty) : Verdict := some (.unfit target source none)

/-- Every member of a union fits, or the first that does not is named. -/
def fromUnion (source : Ty) (members : List Ty) (target : Ty) : CheckM σ Verdict :=
  CheckM.firstMisfit
    (fun m => do
      match ← ask m target with
      | none => pure none
      | some found =>
        if found.path.isEmpty then pure (some (.unfit target source (some (.member m))))
        else pure (some found))
    members

/-- Fits at least one of several targets. -/
def toSome (source target : Ty) (members : List Ty) : CheckM σ Verdict := do
  if ← CheckM.someFits (fun m => ask source m) members then pure none
  else pure (misfit source target)

/-- At least one of several sources fits. -/
def fromSome (source : Ty) (members : List Ty) (target : Ty) : CheckM σ Verdict := do
  if ← CheckM.someFits (fun m => ask m target) members then pure none
  else pure (misfit source target)

/-- An intersection fits an object by its combined shape, and anything else by one of its
members. -/
def fromInter (depth : Nat) (source : Ty) (members : List Ty) (target : Ty) :
    CheckM σ Verdict := do
  match target with
  | .object _ _ _ =>
    match ← Member.combinedObject ctx ask depth source with
    | some shape =>
      match ← ask shape target with
      | none => pure none
      | some found =>
        pure (some (if found.path.isEmpty then { found with actual := some source } else found))
    | none => fromSome ask source members target
  | _ => fromSome ask source members target

/-- Pairs checked in turn, each at its position. -/
def pointwise (pairs : List (Ty × Ty)) : CheckM σ Verdict :=
  CheckM.firstMisfit (fun ((s, t), i) => CheckM.within (.position i) (ask s t)) pairs.zipIdx

def toArray (source target element : Ty) : CheckM σ Verdict :=
  match source with
  | .array e => CheckM.within .element (ask e element)
  | .tuple es => pointwise ask (es.map fun e => (e, element))
  | _ => pure (misfit source target)

def toTuple (source target : Ty) (elements : List Ty) : CheckM σ Verdict :=
  match source with
  | .tuple es =>
    if es.length = elements.length then pointwise ask (es.zip elements)
    else pure (some (.unfit target source (some (.lengths es.length elements.length))))
  | _ => pure (misfit source target)

/-- One property that the target wants. -/
def wantedField (source target : Ty) (fields : List (Field Ty)) (wanted : Field Ty) :
    CheckM σ Verdict :=
  match Field.find? fields wanted.name with
  | none =>
    if wanted.optional then pure none
    else pure (some ⟨.missing, some target, some source, [.field wanted.name], none⟩)
  | some found =>
    if found.optional && !wanted.optional then
      pure (some ⟨.missing, some target, some source, [.field wanted.name], some .optionalInSource⟩)
    else CheckM.within (.field wanted.name) (ask found.type wanted.type)

/-- A type that must fit an index; a misfit blames the two types themselves. -/
def underIndex (value type : Ty) (segment : Segment) : CheckM σ Verdict := do
  match ← ask type value with
  | none => pure none
  | some _ => pure (some ⟨.index, some value, some type, [segment], none⟩)

/-- Every property of the source and its own index fit the index of the target. -/
def indexed (fields : List (Field Ty)) (sourceIndex targetIndex : Option (Index Ty)) :
    CheckM σ Verdict :=
  match targetIndex with
  | none => pure none
  | some index => do
    match ← CheckM.firstMisfit
        (fun f => underIndex ask index.value f.type (.field f.name)) fields with
    | some m => pure (some m)
    | none =>
      match sourceIndex with
      | none => pure none
      | some own => underIndex ask index.value own.value .key

def toObject (source target : Ty) (wanted : List (Field Ty)) (index : Option (Index Ty)) :
    CheckM σ Verdict :=
  match source with
  | .object fields own _ => do
    match ← CheckM.firstMisfit (wantedField ask source target fields) wanted with
    | some m => pure (some m)
    | none => indexed ask fields own index
  | _ => pure (misfit source target)

/-- The type of what a rest parameter collects; anything if it is no array. -/
def elementOf (t : Ty) : CheckM σ Ty := do
  match ← ctx.resolve t with
  | .array e => pure e
  | _ => pure Ty.any

/-- What callers of the target pass must be accepted by the source, or under bivariance the
other way round. -/
def parameter (targetParam sourceParam : Ty) : CheckM σ Verdict := do
  match ← ask targetParam sourceParam with
  | none => pure none
  | some m =>
    match ctx.variance with
    | .contravariant => pure (some m)
    | .bivariant =>
      match ← ask sourceParam targetParam with
      | none => pure none
      | some _ => pure (some m)

/-- Arguments the target provides one by one. Beyond its own positions the source takes them by
its rest parameter, or ignores them. -/
def provided (rest : Option (Param Ty)) : List (Param Ty) → List (Param Ty) → CheckM σ Verdict
  | [], _ => pure none
  | p :: ps, q :: qs => do
    match ← CheckM.within (.param p.name) (parameter ctx ask p.type q.type) with
    | some m => pure (some m)
    | none => provided rest ps qs
  | p :: ps, [] =>
    match rest with
    | none => provided rest ps []
    | some r => do
      let element ← elementOf ctx r.type
      match ← CheckM.within (.param p.name) (parameter ctx ask p.type element) with
      | some m => pure (some m)
      | none => provided rest ps []

/-- Parameters the source has beyond the positions of the target. The target must feed them by
its rest parameter, unless they are optional. -/
def surplus (source target : Signature Ty) : CheckM σ Verdict :=
  let arguments := target.positional.length
  let extra := source.positional.drop arguments
  match target.rest? with
  | some r => do
    let element ← elementOf ctx r.type
    match ← CheckM.firstMisfit
        (fun p => CheckM.within (.param p.name) (parameter ctx ask element p.type)) extra with
    | some m => pure (some m)
    | none =>
      match source.rest? with
      | none => pure none
      | some own => CheckM.within (.param own.name) (parameter ctx ask r.type own.type)
  | none =>
    match extra.find? (fun p => !p.optional) with
    | none => pure none
    | some p => pure (some ⟨.unfit, none, none, [], some (.unprovided arguments p.name)⟩)

def signature (source target : Signature Ty) : CheckM σ Verdict := do
  match ← provided ctx ask source.rest? target.positional source.positional with
  | some m => pure (some m)
  | none =>
    match ← surplus ctx ask source target with
    | some m => pure (some m)
    | none => CheckM.within .result (ask source.result target.result)

/-- Every target signature is met by some source signature. A misfit without a place blames the
whole types. -/
def signatures (source target : Ty) (sources targets : List (Signature Ty)) :
    CheckM σ Verdict := do
  match ← CheckM.firstMisfit
      (fun t => CheckM.bestOf (fun s => signature ctx ask s t) sources) targets with
  | none => pure none
  | some m =>
    if m.path.isEmpty then pure (some (.unfit target source m.detail)) else pure (some m)

/-- Receivers compare like parameters, and only when both functions declare one. -/
def receivers : Option Ty → Option Ty → CheckM σ Verdict
  | some own, some wanted => CheckM.within .receiver (ask wanted own)
  | _, _ => pure none

def toFunc (source target : Ty) (targets : List (Signature Ty)) (wanted : Option Ty) :
    CheckM σ Verdict :=
  match source with
  | .func sources own => do
    match ← receivers ask own wanted with
    | some m => pure (some m)
    | none => signatures ctx ask source target sources targets
  | _ => pure (misfit source target)

def toCtor (source target : Ty) (targets : List (Signature Ty)) : CheckM σ Verdict :=
  match source with
  | .ctor sources => signatures ctx ask source target sources targets
  | _ => pure (misfit source target)

/-- A source that is no union against a target that is neither union nor intersection. -/
def plain (depth : Nat) (source target : Ty) : CheckM σ Verdict :=
  match source with
  | .inter ms => fromInter ctx ask depth source ms target
  | _ =>
    match target with
    | .array e => toArray ask source target e
    | .tuple es => toTuple ask source target es
    | .object fs index _ => toObject ask source target fs index
    | .func ss receiver => toFunc ctx ask source target ss receiver
    | .ctor ss => toCtor ctx ask source target ss
    | _ => pure (misfit source target)

/-- Two types that differ, by their outermost shapes. The source is taken apart first, then the
target. -/
def structural (depth : Nat) (source target : Ty) : CheckM σ Verdict :=
  match source with
  | .union ms => fromUnion ask source ms target
  | _ =>
    match target with
    | .inter ms => CheckM.firstMisfit (fun m => ask source m) ms
    | .union ms => toSome ask source target ms
    | _ => plain ctx ask depth source target

def isScalar : Ty → Bool
  | .prim _ | .literal _ => true
  | _ => false

/-- A literal fits its own primitive. -/
def widensTo : Ty → Ty → Bool
  | .literal v, .prim k => v.base = k
  | _, _ => false

/-- Verdicts that need no look inside: equal types, the extremes, and scalars. -/
def immediate (source target : Ty) : Option Verdict :=
  if source.same target || target.isAny || source.isNever then some none
  else if target.isNever then some (misfit source target)
  else if source.isAny then some none
  else if target.same Ty.void && source.same Ty.undefined then some none
  else if isScalar source && isScalar target then
    some (if widensTo source target then none else misfit source target)
  else none

/-- One question, with `ask` for those it leads to. -/
def answer (depth : Nat) (source target : Ty) : CheckM σ Verdict := do
  let source ← ctx.resolve source
  let target ← ctx.resolve target
  match immediate source target with
  | some v => pure v
  | none => remember ctx.memoize ⟨source, target⟩ (structural ctx ask depth source target)

end ShapeCheck.Rule
