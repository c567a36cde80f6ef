import ShapeCheck.Pass.Run
import ShapeCheck.Proofs.Fit.Mirror

/-! Two passes with the same settings, side by side. They may look names up in different ways and
have gone through different things before. Steps that are put together alike go alike if lookups,
checks and what is read and written on the way do. -/

namespace ShapeCheck

namespace Mirror
variable {σ τ : Type} {ctx : Surroundings σ} {other : Surroundings τ} {M : Mirror ctx other}
  {ask : Ask σ} {ask' : Ask τ}

theorem reflects_matchArguments (ha : ∀ s t, M.Reflects (ask s t) (ask' s t)) (i : Nat)
    (ps : List (Param Ty)) (args : List Ty) :
    M.Reflects (Call.matchArguments ask i ps args) (Call.matchArguments ask' i ps args) := by
  induction ps generalizing i args with
  | nil => exact reflects_pure none
  | cons p ps ih =>
    cases args with
    | nil => exact reflects_pure none
    | cons a args =>
      refine (ha a p.type).bind fun v => ?_
      cases v with
      | none => exact ih (i + 1) args
      | some m => exact reflects_pure _

theorem reflects_refusal? (ha : ∀ s t, M.Reflects (ask s t) (ask' s t)) (s : Signature Ty)
    (args : List Ty) : M.Reflects (Call.refusal? ask s args) (Call.refusal? ask' s args) := by
  unfold Call.refusal?
  split
  · refine (reflects_matchArguments ha 0 s.positional args).bind fun r => ?_
    cases r with
    | some r => exact reflects_pure _
    | none =>
      unfold Call.matchTrailing
      cases s.rest? with
      | none => exact reflects_pure none
      | some p =>
        refine (ha _ p.type).bind fun v => ?_
        cases v <;> exact reflects_pure _
  · exact reflects_pure _

theorem reflects_resolveFrom (ha : ∀ s t, M.Reflects (ask s t) (ask' s t)) (args : List Ty)
    (i : Nat) (ss : List (Signature Ty)) :
    M.Reflects (Call.resolveFrom ask args i ss) (Call.resolveFrom ask' args i ss) := by
  induction ss generalizing i with
  | nil => exact reflects_pure _
  | cons s ss ih =>
    refine (reflects_refusal? ha s args).bind fun r => ?_
    cases r with
    | none => exact reflects_pure _
    | some refusal => exact (ih (i + 1)).bind fun later => reflects_pure _

theorem reflects_checkReceiver (ha : ∀ s t, M.Reflects (ask s t) (ask' s t))
    (required bound : Option Ty) :
    M.Reflects (Call.checkReceiver ask required bound)
      (Call.checkReceiver ask' required bound) := by
  cases required with
  | none => exact reflects_pure none
  | some r =>
    cases bound with
    | none => exact reflects_pure _
    | some b =>
      refine (ha b r).bind fun v => ?_
      cases v <;> exact reflects_pure _

end Mirror

namespace Pass

/-- What a pass reads of its state is the same, apart from names and verdicts. -/
structure ReadsAlike (p q : Pass) : Prop where
  scope : q.scope = p.scope
  duties : q.env.duties = p.env.duties
  names : q.env.cells.length = p.env.cells.length

/-- A way to compare the steps of two passes that goes along with how the types of expressions are
found. -/
structure Pairing (L L' : Lookup) (s : Setting) where
  checks : Mirror (@Setting.surroundings L s) (@Setting.surroundings L' s)
  Matches : ∀ {α : Type}, PassM α → PassM α → Prop
  result : ∀ {α : Type} (a : α), Matches (pure a) (pure a)
  fault : ∀ {α : Type} (e : Fault), Matches (throw e : PassM α) (throw e)
  seq : ∀ {α β : Type} {act act' : PassM α} {f f' : α → PassM β}, Matches act act' →
    (∀ a, Matches (f a) (f' a)) → Matches (act >>= f) (act' >>= f')
  reading : ∀ {α : Type} {k l : Pass → PassM α},
    (∀ p q, ReadsAlike p q → Matches (k p) (l q)) → Matches (get >>= k) (get >>= l)
  checking : ∀ {α : Type} {act act' : CheckM Env α}, checks.Reflects act act' →
    Matches (checking act) (checking act')
  report : ∀ d, Matches (report d) (report d)
  record : ∀ kind t, Matches (record kind t) (record kind t)

/-- One that goes along with how whole passes are put together. -/
structure Tandem (L L' : Lookup) (s : Setting) extends Pairing L L' s where
  following : ∀ recipe, Matches (@following L recipe) (@following L' recipe)
  resolving : ∀ name span,
    Matches (naming (L.resolve name span)) (naming (L'.resolve name span))
  binding : ∀ name t, Matches (modify fun p => { p with scope := p.scope.bind name t })
    (modify fun p => { p with scope := p.scope.bind name t })
  noting : ∀ name t, Matches (noteAlias name t) (noteAlias name t)

namespace Pairing
variable {L L' : Lookup} {s : Setting} {P : Pairing L L' s} {α β : Type}

theorem matches_pure (a : α) : P.Matches (pure a) (pure a) := P.result a

theorem Matches.bind {act act' : PassM α} {f f' : α → PassM β} (h : P.Matches act act')
    (hf : ∀ a, P.Matches (f a) (f' a)) : P.Matches (act >>= f) (act' >>= f') := P.seq h hf

theorem matches_ask (a b : Ty) :
    P.Matches (Pass.checking (@Setting.ask L s a b)) (Pass.checking (@Setting.ask L' s a b)) :=
  P.checking (Mirror.reflects_check s.depth a b)

/-- What is at fault is reported on both sides, and given a type all the same. -/
theorem matches_reported (d : Diagnostic) (t : Ty) :
    P.Matches (do Pass.report d; pure t) (do Pass.report d; pure t) :=
  (P.report d).bind fun _ => matches_pure t

/-! The types of expressions. -/

theorem matches_literalType (v : Value) : P.Matches (literalType v) (literalType v) := by
  unfold literalType
  split
  · exact matches_pure _
  · split
    · exact matches_pure _
    · exact P.fault _

theorem matches_identifierType (name : String) (span : Option Span) :
    P.Matches (identifierType name span) (identifierType name span) := by
  refine P.reading fun p q hpq => ?_
  rw [hpq.scope]
  cases p.scope.lookup name with
  | some t => exact matches_pure t
  | none =>
    dsimp only
    split
    · exact matches_pure _
    · exact matches_reported _ _

theorem matches_accessType (owner : Ty) (name : String) (span : Option Span) :
    P.Matches (@accessType L s owner name span) (@accessType L' s owner name span) := by
  refine (P.checking (Mirror.reflects_propertyType (Mirror.reflects_check s.depth) s.depth owner
    name)).bind fun r => ?_
  cases r with
  | some t => exact matches_pure t
  | none => exact matches_reported _ _

theorem matches_choose (ss : List (Signature Ty)) (args : List Ty) (callee : String)
    (receiver : Option Ty) (span : Option Span) :
    P.Matches (@choose L s ss args callee receiver span)
      (@choose L' s ss args callee receiver span) := by
  refine (P.checking (Mirror.reflects_resolveFrom (Mirror.reflects_check s.depth) args 0 ss)).bind
    fun r => ?_
  cases hc : r.chosen with
  | some c => exact matches_pure _
  | none => exact matches_reported _ _

theorem matches_reportReceiver (span : Option Span) (v : Option ReceiverViolation) :
    P.Matches (reportReceiver span v) (reportReceiver span v) := by
  cases v with
  | none => exact matches_pure ()
  | some v => exact P.report _

theorem matches_callType (callee : Expr) (t : Ty) (bound : Option Ty) (args : List Ty)
    (span : Option Span) :
    P.Matches (@callType L s callee t bound args span)
      (@callType L' s callee t bound args span) := by
  refine (P.checking (P.checks.resolve t)).bind fun t' => ?_
  cases t' with
  | prim k => cases k <;> first | exact matches_pure _ | exact matches_reported _ _
  | func ss receiver =>
    refine (P.checking (Mirror.reflects_checkReceiver (Mirror.reflects_check s.depth) receiver
      bound)).bind fun v => ?_
    exact (matches_reportReceiver span v).bind fun _ => matches_choose ss args _ _ _
  | _ => exact matches_reported _ _

theorem matches_constructType (callee : Expr) (t : Ty) (args : List Ty) (span : Option Span) :
    P.Matches (@constructType L s callee t args span)
      (@constructType L' s callee t args span) := by
  refine (P.checking (P.checks.resolve t)).bind fun t' => ?_
  cases t' with
  | prim k => cases k <;> first | exact matches_pure _ | exact matches_reported _ _
  | ctor ss => exact matches_choose ss args _ _ _
  | _ => exact matches_reported _ _

theorem matches_recorded {act act' : PassM Typed} (kind : NodeKind) (h : P.Matches act act') :
    P.Matches (recorded kind act) (recorded kind act') :=
  h.bind fun typed => (P.record kind typed.type).bind fun _ => matches_pure typed

mutual
theorem matches_infer (e : Expr) : P.Matches (@infer L s e) (@infer L' s e) := by
  cases e with
  | literal v span =>
    simp only [infer]
    exact matches_recorded _ ((matches_literalType v).bind fun _ => matches_pure _)
  | identifier name span =>
    simp only [infer]
    exact matches_recorded _ ((matches_identifierType name span).bind fun _ => matches_pure _)
  | object assignments span =>
    simp only [infer]
    exact matches_recorded _ ((matches_inferAssignments span [] assignments).bind fun _ =>
      matches_pure _)
  | array es span =>
    simp only [infer]
    exact matches_recorded _ ((matches_inferAll es).bind fun _ => matches_pure _)
  | access owner name span =>
    simp only [infer]
    refine matches_recorded _ ((matches_infer owner).bind fun o => ?_)
    exact (matches_accessType o.type name span).bind fun _ => matches_pure _
  | call callee args receiver span =>
    cases receiver with
    | none =>
      simp only [infer]
      refine matches_recorded _ ((matches_infer callee).bind fun f => ?_)
      refine (matches_inferAll args).bind fun ts => ?_
      exact (matches_callType callee f.type f.owner ts span).bind fun _ => matches_pure _
    | some receiver =>
      simp only [infer]
      refine matches_recorded _ ((matches_infer callee).bind fun f => ?_)
      refine (matches_infer receiver).bind fun b => (matches_inferAll args).bind fun ts => ?_
      exact (matches_callType callee f.type (some b.type) ts span).bind fun _ => matches_pure _
  | construct callee args span =>
    simp only [infer]
    refine matches_recorded _ ((matches_infer callee).bind fun f => ?_)
    refine (matches_inferAll args).bind fun ts => ?_
    exact (matches_constructType callee f.type ts span).bind fun _ => matches_pure _
  | misplaced node => exact P.fault _

theorem matches_inferAll (es : List Expr) : P.Matches (@inferAll L s es) (@inferAll L' s es) := by
  cases es with
  | nil => exact matches_pure []
  | cons e es =>
    simp only [inferAll]
    exact (matches_infer e).bind fun t => (matches_inferAll es).bind fun ts => matches_pure _

theorem matches_inferAssignments (span : Option Span) (fs : List (Field Ty))
    (assignments : List (Assignment Expr)) :
    P.Matches (@inferAssignments L s span fs assignments)
      (@inferAssignments L' s span fs assignments) := by
  cases assignments with
  | nil => exact matches_pure fs
  | cons a rest =>
    obtain ⟨name, value, place⟩ := a
    simp only [inferAssignments]
    refine (matches_infer value).bind fun t => ?_
    split
    · exact (P.report _).bind fun _ => matches_inferAssignments span _ rest
    · exact matches_inferAssignments span _ rest
end

end Pairing

namespace Tandem
variable {L L' : Lookup} {s : Setting} {T : Tandem L L' s}
open Pairing

/-! Declarations. -/

theorem matches_bindValue (name : String) (t : Ty) (span : Option Span) :
    T.Matches (bindValue name t span) (bindValue name t span) := by
  refine T.reading fun p q hpq => ?_
  rw [hpq.scope]
  split
  · exact (T.report _).bind fun _ => T.binding name t
  · exact T.binding name t

theorem matches_hoistFunctions (ds : List Decl) :
    T.Matches (@hoistFunctions L ds) (@hoistFunctions L' ds) := by
  induction ds with
  | nil => exact matches_pure ()
  | cons d ds ih =>
    cases d with
    | func name signatures receiver span =>
      refine (T.following _).bind fun t => (T.record _ t).bind fun _ => ?_
      exact (matches_bindValue name t span).bind fun _ => ih
    | _ => exact ih

theorem matches_declaredType (declared : Option TypeExpr) :
    T.Matches (@declaredType L declared) (@declaredType L' declared) := by
  cases declared with
  | none => exact matches_pure none
  | some e =>
    simp only [declaredType, map_eq_pure_bind]
    exact (T.following _).bind fun t => matches_pure (some t)

theorem matches_initialized (binding : Binding) (declared : Option Ty) (e : Expr)
    (span : Option Span) :
    T.Matches (@initialized L s binding declared e span)
      (@initialized L' s binding declared e span) := by
  refine (matches_infer e).bind fun typed => ?_
  cases declared with
  | none =>
    dsimp only
    split <;> exact matches_pure _
  | some target =>
    refine (matches_ask typed.type target).bind fun v => ?_
    cases v with
    | none => exact matches_pure target
    | some m => exact matches_reported _ target

theorem matches_declareValue (name : String) (binding : Binding) (declared : Option TypeExpr)
    (init : Option Expr) (span : Option Span) :
    T.Matches (@declareValue L s name binding declared init span)
      (@declareValue L' s name binding declared init span) := by
  have hbound : ∀ t, T.Matches (do Pass.record .valueDecl t; bindValue name t span)
      (do Pass.record .valueDecl t; bindValue name t span) := fun t =>
    (T.record _ t).bind fun _ => matches_bindValue name t span
  refine (matches_declaredType declared).bind fun r => ?_
  cases init with
  | none => exact (matches_pure _).bind hbound
  | some e => exact (matches_initialized binding r e span).bind hbound

theorem matches_declareName (kind : NodeKind) (name : String) (span : Option Span) :
    T.Matches (@declareName L kind name span) (@declareName L' kind name span) :=
  (T.resolving name span).bind fun t => (T.noting name t).bind fun _ => T.record kind t

theorem matches_declare (d : Decl) : T.Matches (@declare L s d) (@declare L' s d) := by
  cases d with
  | typeAlias name body span => exact matches_declareName _ name span
  | interface name properties index bases span => exact matches_declareName _ name span
  | func name signatures receiver span => exact matches_pure ()
  | value name binding declared init span =>
    exact matches_declareValue name binding declared init span
  | statement e => exact (matches_infer e).bind fun typed => T.record _ typed.type
  | misplaced node => exact T.fault _

theorem matches_declareAll (ds : List Decl) :
    T.Matches (@declareAll L s ds) (@declareAll L' s ds) := by
  induction ds with
  | nil => exact matches_pure ()
  | cons d ds ih => exact (matches_declare d).bind fun _ => ih

/-! The checks left for later. -/

theorem matches_checkRefinement (interface : String) (fs gs : List (Field Ty))
    (declared : List (String × Option Span)) :
    T.Matches (@checkRefinement L s interface fs gs declared)
      (@checkRefinement L' s interface fs gs declared) := by
  induction declared with
  | nil => exact matches_pure ()
  | cons b declared ih =>
    obtain ⟨name, span⟩ := b
    simp only [checkRefinement]
    split
    · rename_i base own _ _
      refine (matches_ask own.type base.type).bind fun v => ?_
      cases v with
      | none => exact ih
      | some m => exact (T.report _).bind fun _ => ih
    · exact ih

theorem matches_checkWaiting (value : Ty) (span : Option Span) (fs : List (Field Ty)) :
    T.Matches (@checkWaiting L s value span fs) (@checkWaiting L' s value span fs) := by
  induction fs with
  | nil => exact matches_pure ()
  | cons f fs ih =>
    simp only [checkWaiting]
    split
    · refine (matches_ask f.type value).bind fun v => ?_
      cases v with
      | none => exact ih
      | some m => exact (T.report _).bind fun _ => ih
    · exact ih

section Rounds
variable {handle handle' : Obligation → PassM Unit}

theorem matches_forM (hh : ∀ duty, T.Matches (handle duty) (handle' duty))
    (duties : List Obligation) : T.Matches (duties.forM handle) (duties.forM handle') := by
  induction duties with
  | nil => exact matches_pure ()
  | cons duty duties ih => exact (hh duty).bind fun _ => ih

theorem matches_dischargeFrom (hh : ∀ duty, T.Matches (handle duty) (handle' duty))
    (rounds done : Nat) :
    T.Matches (dischargeFrom handle rounds done) (dischargeFrom handle' rounds done) := by
  induction rounds generalizing done with
  | zero =>
    refine T.reading fun p q hpq => ?_
    rw [hpq.duties]
    split
    · exact matches_pure ()
    · exact T.fault _
  | succ rounds ih =>
    refine T.reading fun p q hpq => ?_
    rw [hpq.duties]
    cases p.env.duties.drop done with
    | nil => exact matches_pure ()
    | cons duty duties => exact (matches_forM hh (duty :: duties)).bind fun _ => ih _

theorem matches_dischargeAll (hh : ∀ duty, T.Matches (handle duty) (handle' duty)) :
    T.Matches (dischargeAll handle) (dischargeAll handle') := by
  refine T.reading fun p q hpq => ?_
  rw [hpq.names]
  exact matches_dischargeFrom hh _ 0

end Rounds

theorem matches_discharge : T.Matches (@discharge L s) (@discharge L' s) := by
  refine (matches_dischargeAll fun duty => ?_).bind fun _ => matches_dischargeAll fun duty => ?_
  · cases duty with
    | index fs i name span => exact matches_pure ()
    | refinement interface declared fs gs => exact matches_checkRefinement interface fs gs declared
  · cases duty with
    | index fs i name span => exact matches_checkWaiting i.value span fs
    | refinement interface declared fs gs => exact matches_pure ()

end Tandem

end Pass
end ShapeCheck
