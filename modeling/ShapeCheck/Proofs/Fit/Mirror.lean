import ShapeCheck.Fit.Check
import ShapeCheck.Proofs.Settle

/-! Checks in two kinds of surroundings, side by side. A check looks at its world only to follow
references and at its memo only to remember answers, so computations that are put together alike go
alike if those two do. -/

namespace ShapeCheck
variable {σ τ α β : Type}

/-- A way to compare computations in two kinds of surroundings that goes along with how checks are
put together. -/
structure Mirror (ctx : Surroundings σ) (other : Surroundings τ) where
  Reflects : ∀ {α : Type}, CheckM σ α → CheckM τ α → Prop
  result : ∀ {α : Type} (a : α), Reflects (pure a) (pure a)
  fault : ∀ {α : Type} (e : Fault), Reflects (throw e : CheckM σ α) (throw e)
  seq : ∀ {α β : Type} {act : CheckM σ α} {act' : CheckM τ α} {f : α → CheckM σ β}
    {f' : α → CheckM τ β}, Reflects act act' → (∀ a, Reflects (f a) (f' a)) →
    Reflects (act >>= f) (act' >>= f')
  resolve : ∀ t, Reflects (ctx.resolve t) (other.resolve t)
  remember : ∀ (q : Question) {work : CheckM σ Verdict} {work' : CheckM τ Verdict},
    Reflects work work' →
    Reflects (remember ctx.memoize q work) (remember other.memoize q work')
  variance : other.variance = ctx.variance
  objectOf : other.objectOf = ctx.objectOf

namespace Mirror
variable {ctx : Surroundings σ} {other : Surroundings τ} {M : Mirror ctx other}

theorem reflects_pure (a : α) : M.Reflects (pure a) (pure a) := M.result a

theorem reflects_throw (e : Fault) :
    M.Reflects (throw e : CheckM σ α) (throw e) := M.fault e

theorem reflects_resolve (t : Ty) : M.Reflects (ctx.resolve t) (other.resolve t) := M.resolve t

theorem Reflects.bind {act : CheckM σ α} {act' : CheckM τ α} {f : α → CheckM σ β}
    {f' : α → CheckM τ β} (h : M.Reflects act act') (hf : ∀ a, M.Reflects (f a) (f' a)) :
    M.Reflects (act >>= f) (act' >>= f') := M.seq h hf

theorem Reflects.map {act : CheckM σ α} {act' : CheckM τ α} (f : α → β)
    (h : M.Reflects act act') : M.Reflects (f <$> act) (f <$> act') := by
  rw [map_eq_pure_bind, map_eq_pure_bind]
  exact h.bind fun a => reflects_pure (f a)

theorem reflects_ofExcept (r : Except Fault α) :
    M.Reflects (CheckM.ofExcept r) (CheckM.ofExcept r) := by
  cases r with
  | error e => exact reflects_throw e
  | ok a => exact reflects_pure a

section
variable {f : α → CheckM σ Verdict} {f' : α → CheckM τ Verdict}

theorem reflects_firstMisfit (h : ∀ x, M.Reflects (f x) (f' x)) (xs : List α) :
    M.Reflects (CheckM.firstMisfit f xs) (CheckM.firstMisfit f' xs) := by
  induction xs with
  | nil => exact reflects_pure none
  | cons x xs ih =>
    refine (h x).bind fun v => ?_
    cases v with
    | none => exact ih
    | some m => exact reflects_pure _

theorem reflects_someFits (h : ∀ x, M.Reflects (f x) (f' x)) (xs : List α) :
    M.Reflects (CheckM.someFits f xs) (CheckM.someFits f' xs) := by
  induction xs with
  | nil => exact reflects_pure false
  | cons x xs ih =>
    refine (h x).bind fun v => ?_
    cases v with
    | none => exact reflects_pure true
    | some m => exact ih

theorem reflects_some (h : ∀ x, M.Reflects (f x) (f' x)) (xs : List α) (no : Verdict) :
    M.Reflects (do if ← CheckM.someFits f xs then pure none else pure no)
      (do if ← CheckM.someFits f' xs then pure none else pure no) := by
  refine (reflects_someFits h xs).bind fun b => ?_
  cases b <;> exact reflects_pure _

theorem reflects_bestOf (h : ∀ x, M.Reflects (f x) (f' x)) (xs : List α) :
    M.Reflects (CheckM.bestOf f xs) (CheckM.bestOf f' xs) := by
  cases xs with
  | nil => exact reflects_pure none
  | cons x xs =>
    refine (h x).bind fun v => ?_
    cases v with
    | none => exact reflects_pure none
    | some m => exact reflects_some h xs (some m)

end

theorem reflects_mapM {f : α → CheckM σ β} {f' : α → CheckM τ β}
    (h : ∀ x, M.Reflects (f x) (f' x)) (xs : List α) : M.Reflects (xs.mapM f) (xs.mapM f') := by
  rw [← List.mapM'_eq_mapM, ← List.mapM'_eq_mapM]
  induction xs with
  | nil => exact reflects_pure []
  | cons x xs ih => exact (h x).bind fun y => ih.bind fun ys => reflects_pure (y :: ys)

/-! Collecting properties. -/

section
variable {ask : Ask σ} {ask' : Ask τ}

theorem reflects_isObjectLike (t : Ty) :
    M.Reflects (Member.isObjectLike ctx t) (Member.isObjectLike other t) := by
  refine (reflects_resolve t).bind fun t' => ?_
  cases t' <;> exact reflects_pure _

theorem reflects_narrower (ha : ∀ s t, M.Reflects (ask s t) (ask' s t)) (a b : Ty) :
    M.Reflects (Member.narrower ctx ask a b) (Member.narrower other ask' a b) := by
  refine (ha a b).bind fun v => ?_
  cases v with
  | none => exact reflects_pure a
  | some m =>
    refine (ha b a).bind fun v => ?_
    cases v with
    | none => exact reflects_pure b
    | some m' =>
      refine (reflects_isObjectLike a).bind fun p => ?_
      cases p with
      | false => exact reflects_pure _
      | true =>
        refine (reflects_isObjectLike b).bind fun q => ?_
        cases q <;> exact reflects_pure _

theorem reflects_mergeFields (ha : ∀ s t, M.Reflects (ask s t) (ask' s t))
    (merged fs : List (Field Ty)) :
    M.Reflects (Member.mergeFields ctx ask merged fs)
      (Member.mergeFields other ask' merged fs) := by
  induction fs generalizing merged with
  | nil => exact reflects_pure merged
  | cons f fs ih =>
    simp only [Member.mergeFields]
    cases Field.find? merged f.name with
    | none => exact ih _
    | some g => exact (reflects_narrower ha g.type f.type).bind fun t => ih _

theorem reflects_mergeMembers (ha : ∀ s t, M.Reflects (ask s t) (ask' s t))
    {fieldsOf : Ty → CheckM σ (Option (List (Field Ty)))}
    {fieldsOf' : Ty → CheckM τ (Option (List (Field Ty)))}
    (hf : ∀ t, M.Reflects (fieldsOf t) (fieldsOf' t)) (merged : Option (List (Field Ty)))
    (ms : List Ty) :
    M.Reflects (Member.mergeMembers ctx ask fieldsOf merged ms)
      (Member.mergeMembers other ask' fieldsOf' merged ms) := by
  induction ms generalizing merged with
  | nil => exact reflects_pure merged
  | cons m ms ih =>
    refine (hf m).bind fun r => ?_
    cases r with
    | none => exact ih merged
    | some fs => exact (reflects_mergeFields ha _ fs).bind fun gs => ih (some gs)

theorem reflects_fieldsOf (ha : ∀ s t, M.Reflects (ask s t) (ask' s t)) (depth : Nat) (t : Ty) :
    M.Reflects (Member.fieldsOf ctx ask depth t) (Member.fieldsOf other ask' depth t) := by
  induction depth generalizing t with
  | zero => exact reflects_throw _
  | succ depth ih =>
    refine (reflects_resolve t).bind fun t' => ?_
    cases t' with
    | union ms => exact (reflects_mapM ih ms).bind fun rs => reflects_pure _
    | inter ms => exact reflects_mergeMembers ha ih none ms
    | _ => exact reflects_pure _

theorem reflects_indexOf (depth : Nat) (t : Ty) :
    M.Reflects (Member.indexOf ctx depth t) (Member.indexOf other depth t) := by
  induction depth generalizing t with
  | zero => exact reflects_throw _
  | succ depth ih =>
    refine (reflects_resolve t).bind fun t' => ?_
    cases t' with
    | inter ms =>
      refine (reflects_mapM ih ms).bind fun rs => ?_
      split <;> exact reflects_pure _
    | _ => exact reflects_pure _

theorem reflects_propertyType (ha : ∀ s t, M.Reflects (ask s t) (ask' s t)) (depth : Nat) (t : Ty)
    (name : String) :
    M.Reflects (Member.propertyType ctx ask depth t name)
      (Member.propertyType other ask' depth t name) := by
  refine (reflects_resolve t).bind fun t' => ?_
  by_cases hany : t'.isAny
  · simp only [hany, if_true]
    exact reflects_pure _
  by_cases hnever : t'.isNever
  · simp only [hany, hnever, if_true]
    exact reflects_pure _
  simp only [hany, hnever]
  refine (reflects_fieldsOf ha depth t').bind fun r => ?_
  cases r.bind (Field.find? · name) with
  | some f => exact reflects_pure _
  | none => exact (reflects_indexOf depth t').bind fun i => reflects_pure _

theorem reflects_fittingIndex (ha : ∀ s t, M.Reflects (ask s t) (ask' s t))
    (fs : List (Field Ty)) (i : Option (Index Ty)) :
    M.Reflects (Member.fittingIndex ask fs i) (Member.fittingIndex ask' fs i) := by
  cases i with
  | none => exact reflects_pure none
  | some i =>
    refine (reflects_firstMisfit (fun f => ha f.type i.value) fs).bind fun v => ?_
    cases v <;> exact reflects_pure _

theorem reflects_combinedObject (ha : ∀ s t, M.Reflects (ask s t) (ask' s t)) (depth : Nat)
    (t : Ty) :
    M.Reflects (Member.combinedObject ctx ask depth t)
      (Member.combinedObject other ask' depth t) := by
  refine (reflects_fieldsOf ha depth t).bind fun r => ?_
  cases r with
  | none => exact reflects_pure none
  | some fs =>
    refine (reflects_indexOf depth t).bind fun i => (reflects_fittingIndex ha fs i).bind fun j => ?_
    rw [M.objectOf]
    exact (reflects_ofExcept _).bind fun shape => reflects_pure (some shape)

/-! The rules. -/

theorem reflects_fromUnion (ha : ∀ s t, M.Reflects (ask s t) (ask' s t)) (s : Ty) (ms : List Ty)
    (t : Ty) : M.Reflects (Rule.fromUnion ask s ms t) (Rule.fromUnion ask' s ms t) := by
  refine reflects_firstMisfit (fun m => (ha m t).bind fun v => ?_) ms
  cases v with
  | none => exact reflects_pure none
  | some found =>
    by_cases hp : found.path.isEmpty
    · simp only [hp]
      exact reflects_pure _
    · simp only [hp]
      exact reflects_pure _

theorem reflects_fromInter (ha : ∀ s t, M.Reflects (ask s t) (ask' s t)) (depth : Nat) (s : Ty)
    (ms : List Ty) (t : Ty) :
    M.Reflects (Rule.fromInter ctx ask depth s ms t) (Rule.fromInter other ask' depth s ms t) := by
  have hsome := reflects_some (fun m => ha m t) ms (Rule.misfit s t)
  cases t with
  | object gs wanted name =>
    refine (reflects_combinedObject ha depth s).bind fun r => ?_
    cases r with
    | none => exact hsome
    | some shape =>
      refine (ha shape _).bind fun v => ?_
      cases v <;> exact reflects_pure _
  | _ => exact hsome

theorem reflects_pointwise (ha : ∀ s t, M.Reflects (ask s t) (ask' s t))
    (pairs : List (Ty × Ty)) : M.Reflects (Rule.pointwise ask pairs) (Rule.pointwise ask' pairs) :=
  reflects_firstMisfit (fun (p : (Ty × Ty) × Nat) => (ha p.1.1 p.1.2).map _) pairs.zipIdx

theorem reflects_toArray (ha : ∀ s t, M.Reflects (ask s t) (ask' s t)) (s t e : Ty) :
    M.Reflects (Rule.toArray ask s t e) (Rule.toArray ask' s t e) := by
  cases s with
  | array a => exact (ha a e).map _
  | tuple as => exact reflects_pointwise ha _
  | _ => exact reflects_pure _

theorem reflects_toTuple (ha : ∀ s t, M.Reflects (ask s t) (ask' s t)) (s t : Ty) (es : List Ty) :
    M.Reflects (Rule.toTuple ask s t es) (Rule.toTuple ask' s t es) := by
  cases s with
  | tuple as =>
    simp only [Rule.toTuple]
    split
    · exact reflects_pointwise ha _
    · exact reflects_pure _
  | _ => exact reflects_pure _

theorem reflects_wantedField (ha : ∀ s t, M.Reflects (ask s t) (ask' s t)) (s t : Ty)
    (fs : List (Field Ty)) (g : Field Ty) :
    M.Reflects (Rule.wantedField ask s t fs g) (Rule.wantedField ask' s t fs g) := by
  unfold Rule.wantedField
  cases Field.find? fs g.name with
  | none => cases g.optional <;> exact reflects_pure _
  | some f =>
    dsimp only
    split
    · exact reflects_pure _
    · exact (ha f.type g.type).map _

theorem reflects_underIndex (ha : ∀ s t, M.Reflects (ask s t) (ask' s t)) (value type : Ty)
    (segment : Segment) :
    M.Reflects (Rule.underIndex ask value type segment)
      (Rule.underIndex ask' value type segment) := by
  refine (ha type value).bind fun v => ?_
  cases v <;> exact reflects_pure _

theorem reflects_indexed (ha : ∀ s t, M.Reflects (ask s t) (ask' s t)) (fs : List (Field Ty))
    (own wanted : Option (Index Ty)) :
    M.Reflects (Rule.indexed ask fs own wanted) (Rule.indexed ask' fs own wanted) := by
  cases wanted with
  | none => exact reflects_pure none
  | some i =>
    refine (reflects_firstMisfit (fun f => reflects_underIndex ha _ _ _) fs).bind fun v => ?_
    cases v with
    | some m => exact reflects_pure _
    | none =>
      cases own with
      | none => exact reflects_pure none
      | some j => exact reflects_underIndex ha _ _ _

theorem reflects_toObject (ha : ∀ s t, M.Reflects (ask s t) (ask' s t)) (s t : Ty)
    (gs : List (Field Ty)) (wanted : Option (Index Ty)) :
    M.Reflects (Rule.toObject ask s t gs wanted) (Rule.toObject ask' s t gs wanted) := by
  cases s with
  | object fs own n =>
    refine (reflects_firstMisfit (reflects_wantedField ha _ t fs) gs).bind fun v => ?_
    cases v with
    | some m => exact reflects_pure _
    | none => exact reflects_indexed ha fs own wanted
  | _ => exact reflects_pure _

theorem reflects_elementOf (t : Ty) :
    M.Reflects (Rule.elementOf ctx t) (Rule.elementOf other t) := by
  refine (reflects_resolve t).bind fun t' => ?_
  cases t' <;> exact reflects_pure _

theorem reflects_parameter (ha : ∀ s t, M.Reflects (ask s t) (ask' s t)) (p q : Ty) :
    M.Reflects (Rule.parameter ctx ask p q) (Rule.parameter other ask' p q) := by
  unfold Rule.parameter
  rw [M.variance]
  refine (ha p q).bind fun v => ?_
  cases v with
  | none => exact reflects_pure none
  | some m =>
    cases ctx.variance with
    | contravariant => exact reflects_pure _
    | bivariant =>
      refine (ha q p).bind fun v => ?_
      cases v <;> exact reflects_pure _

theorem reflects_provided (ha : ∀ s t, M.Reflects (ask s t) (ask' s t)) (rest : Option (Param Ty))
    (ps qs : List (Param Ty)) :
    M.Reflects (Rule.provided ctx ask rest ps qs) (Rule.provided other ask' rest ps qs) := by
  induction ps generalizing qs with
  | nil => exact reflects_pure none
  | cons p ps ih =>
    cases qs with
    | cons q qs =>
      refine ((reflects_parameter ha p.type q.type).map _).bind fun v => ?_
      cases v with
      | none => exact ih qs
      | some m => exact reflects_pure _
    | nil =>
      cases rest with
      | none => exact ih []
      | some r =>
        refine (reflects_elementOf r.type).bind fun e => ?_
        refine ((reflects_parameter ha p.type e).map _).bind fun v => ?_
        cases v with
        | none => exact ih []
        | some m => exact reflects_pure _

theorem reflects_surplus (ha : ∀ s t, M.Reflects (ask s t) (ask' s t)) (s t : Signature Ty) :
    M.Reflects (Rule.surplus ctx ask s t) (Rule.surplus other ask' s t) := by
  unfold Rule.surplus
  cases t.rest? with
  | none =>
    dsimp only
    split <;> exact reflects_pure _
  | some r =>
    refine (reflects_elementOf r.type).bind fun e => ?_
    refine (reflects_firstMisfit (fun (p : Param Ty) =>
      (reflects_parameter ha e p.type).map _) _).bind fun v => ?_
    cases v with
    | some m => exact reflects_pure _
    | none =>
      cases s.rest? with
      | none => exact reflects_pure none
      | some own => exact (reflects_parameter ha r.type own.type).map _

theorem reflects_signature (ha : ∀ s t, M.Reflects (ask s t) (ask' s t)) (s t : Signature Ty) :
    M.Reflects (Rule.signature ctx ask s t) (Rule.signature other ask' s t) := by
  refine (reflects_provided ha _ _ _).bind fun v => ?_
  cases v with
  | some m => exact reflects_pure _
  | none =>
    refine (reflects_surplus ha s t).bind fun v => ?_
    cases v with
    | some m => exact reflects_pure _
    | none => exact (ha _ _).map _

theorem reflects_signatures (ha : ∀ s t, M.Reflects (ask s t) (ask' s t)) (s t : Ty)
    (ss us : List (Signature Ty)) :
    M.Reflects (Rule.signatures ctx ask s t ss us) (Rule.signatures other ask' s t ss us) := by
  refine (reflects_firstMisfit (fun u => reflects_bestOf
    (fun s => reflects_signature ha s u) ss) us).bind fun v => ?_
  cases v with
  | none => exact reflects_pure none
  | some m =>
    dsimp only
    split <;> exact reflects_pure _

theorem reflects_toFunc (ha : ∀ s t, M.Reflects (ask s t) (ask' s t)) (s t : Ty)
    (us : List (Signature Ty)) (wanted : Option Ty) :
    M.Reflects (Rule.toFunc ctx ask s t us wanted) (Rule.toFunc other ask' s t us wanted) := by
  cases s with
  | func ss own =>
    have hr : M.Reflects (Rule.receivers ask own wanted) (Rule.receivers ask' own wanted) := by
      cases own with
      | none => exact reflects_pure none
      | some o =>
        cases wanted with
        | none => exact reflects_pure none
        | some w => exact (ha w o).map _
    refine hr.bind fun v => ?_
    cases v with
    | some m => exact reflects_pure _
    | none => exact reflects_signatures ha _ t ss us
  | _ => exact reflects_pure _

theorem reflects_toCtor (ha : ∀ s t, M.Reflects (ask s t) (ask' s t)) (s t : Ty)
    (us : List (Signature Ty)) :
    M.Reflects (Rule.toCtor ctx ask s t us) (Rule.toCtor other ask' s t us) := by
  cases s with
  | ctor ss => exact reflects_signatures ha _ t ss us
  | _ => exact reflects_pure _

theorem reflects_plain (ha : ∀ s t, M.Reflects (ask s t) (ask' s t)) (depth : Nat) (s t : Ty) :
    M.Reflects (Rule.plain ctx ask depth s t) (Rule.plain other ask' depth s t) := by
  unfold Rule.plain
  split
  · exact reflects_fromInter ha depth _ _ t
  split
  · exact reflects_toArray ha _ _ _
  · exact reflects_toTuple ha _ _ _
  · exact reflects_toObject ha _ _ _ _
  · exact reflects_toFunc ha _ _ _ _
  · exact reflects_toCtor ha _ _ _
  · exact reflects_pure _

theorem reflects_structural (ha : ∀ s t, M.Reflects (ask s t) (ask' s t)) (depth : Nat)
    (s t : Ty) :
    M.Reflects (Rule.structural ctx ask depth s t) (Rule.structural other ask' depth s t) := by
  unfold Rule.structural
  split
  · exact reflects_fromUnion ha _ _ t
  split
  · exact reflects_firstMisfit (ha s) _
  · exact reflects_some (ha s) _ _
  · exact reflects_plain ha depth s _

theorem reflects_answer (ha : ∀ s t, M.Reflects (ask s t) (ask' s t)) (depth : Nat) (s t : Ty) :
    M.Reflects (Rule.answer ctx ask depth s t) (Rule.answer other ask' depth s t) := by
  refine (reflects_resolve s).bind fun s' => (reflects_resolve t).bind fun t' => ?_
  cases Rule.immediate s' t' with
  | some v => exact reflects_pure v
  | none => exact M.remember _ (reflects_structural ha depth s' t')

end

/-- A check in the other surroundings goes the same way. -/
theorem reflects_check (depth : Nat) (s t : Ty) :
    M.Reflects (check ctx depth s t) (check other depth s t) := by
  induction depth generalizing s t with
  | zero => exact reflects_throw _
  | succ depth ih => exact reflects_answer ih depth s t

end Mirror
end ShapeCheck
