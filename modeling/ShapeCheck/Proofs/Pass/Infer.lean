import ShapeCheck.Proofs.Pass.Basic
import ShapeCheck.Proofs.Tree.Parts

/-! The type of every expression is found, or the pass stops at a fault that the features of the
program allow for. -/

namespace ShapeCheck.Pass
variable {φ : Features} {plan : Plan φ} {p : Pass} {α : Type} {config : Config} {t : Ty}

theorem lookup_mem {bs : List (String × Ty)} {name : String} (h : bs.lookup name = some t) :
    ∃ b ∈ bs, b.2 = t := by
  induction bs with
  | nil => cases h
  | cons b bs ih =>
    rw [List.lookup_cons] at h
    split at h
    · exact ⟨b, List.mem_cons_self, Option.some.inj h⟩
    · obtain ⟨b', hb', ht⟩ := ih h
      exact ⟨b', List.mem_cons_of_mem b hb', ht⟩

/-- The types of an expression and of its object are as they should be. -/
structure Typed.Within (φ : Features) (typed : Typed) : Prop where
  type : Ty.Within φ typed.type
  owner : ∀ u, typed.owner = some u → Ty.Within φ u

theorem within_ofType (h : Ty.Within φ t) : (ofType t).Within φ := ⟨h, fun _ h => by cases h⟩

variable [Lookup] [Lookup.Agrees plan]

theorem gives_literalType {v : Value} (hp : p.Sound plan config)
    (hv : ∀ vs, v = .list vs → φ.malformed) :
    (frame plan config).Gives (fun _ => literalType v) p fun t _ => Ty.Within φ t := by
  cases v with
  | null => exact Frame.gives_pure hp (Ty.within_prim _)
  | list vs => exact Frame.gives_throw (.inl ⟨hv vs rfl, by simp⟩)
  | _ => exact Frame.gives_pure hp (Ty.within_literal _)

theorem gives_identifierType (hp : p.Sound plan config) (name : String) (span : Option Span) :
    (frame plan config).Gives (fun _ => identifierType name span) p fun t _ => Ty.Within φ t := by
  refine Frame.Gives.get_bind ?_
  cases hl : p.scope.lookup name with
  | some t =>
    obtain ⟨b, hb, rfl⟩ := lookup_mem hl
    exact Frame.gives_pure hp (hp.scope b hb)
  | none =>
    dsimp only
    split
    · exact Frame.gives_pure hp (Ty.within_prim _)
    · exact gives_reported hp rfl _

theorem gives_accessType (hp : p.Sound plan config) (ht : Ty.Within φ t) (name : String)
    (span : Option Span) :
    (frame plan config).Gives (fun d => accessType ⟨config, d⟩ t name span) p
      fun t _ => Ty.Within φ t := by
  refine (gives_checking hp (hp.checker.gives_propertyType ht name)).bind fun r p' hp' _ hr => ?_
  cases r with
  | some u => exact Frame.gives_pure hp' (hr u rfl)
  | none => exact gives_reported hp' rfl _

theorem gives_choose {ss : List (Signature Ty)} {args : List Ty} (hp : p.Sound plan config)
    (hs : ∀ s ∈ ss, ∀ u ∈ s.parts, Ty.Within φ u) (ha : ∀ a ∈ args, Ty.Within φ a) (callee : String)
    (receiver : Option Ty) (span : Option Span) :
    (frame plan config).Gives (fun d => choose ⟨config, d⟩ ss args callee receiver span) p
      fun t _ => Ty.Within φ t := by
  refine (gives_checking hp (Call.gives_resolveFrom 0 hp.checker hs ha)).bind
    fun r p' hp' _ hr => ?_
  cases hc : r.chosen with
  | some c => exact Frame.gives_pure hp' (hs c.2 (hr c hc) _ (Ty.mem_parts.mpr (.inr rfl)))
  | none => exact gives_reported hp' rfl _

theorem gives_notUsable (hp : p.Sound plan config) (message : String) (t : Ty)
    (span : Option Span) :
    (frame plan config).Gives (fun _ => notUsable message t span) p fun t _ => Ty.Within φ t :=
  gives_reported hp rfl _

theorem gives_reportReceiver (hp : p.Sound plan config) (span : Option Span)
    (v : Option ReceiverViolation) :
    (frame plan config).Gives (fun _ => reportReceiver span v) p fun _ _ => True := by
  cases v with
  | none => exact Frame.gives_pure hp trivial
  | some v => exact Frame.Gives.imp (gives_say hp rfl) fun _ _ _ _ _ => trivial

theorem gives_callType {bound : Option Ty} {args : List Ty} (hp : p.Sound plan config)
    (ht : Ty.Within φ t) (hb : ∀ u, bound = some u → Ty.Within φ u)
    (ha : ∀ a ∈ args, Ty.Within φ a) (callee : Expr) (span : Option Span) :
    (frame plan config).Gives (fun d => callType ⟨config, d⟩ callee t bound args span) p
      fun t _ => Ty.Within φ t := by
  refine (gives_checking hp (hp.checker.gives_standFor ht)).bind fun t' p' hp' _ ht' => ?_
  cases t' with
  | prim k =>
    cases k with
    | any => exact Frame.gives_pure hp' (Ty.within_prim _)
    | never => exact Frame.gives_pure hp' (Ty.within_prim _)
    | _ => exact gives_notUsable hp' _ _ _
  | func ss receiver =>
    refine (gives_checking hp' (Call.gives_checkReceiver hp'.checker ht'.receiver hb)).bind
      fun v p'' hp'' _ _ => ?_
    exact (gives_reportReceiver hp'' span v).bind fun _ _ hp₃ _ _ =>
      gives_choose hp₃ ht'.signature ha _ _ _
  | _ => exact gives_notUsable hp' _ _ _

theorem gives_constructType {args : List Ty} (hp : p.Sound plan config) (ht : Ty.Within φ t)
    (ha : ∀ a ∈ args, Ty.Within φ a) (callee : Expr) (span : Option Span) :
    (frame plan config).Gives (fun d => constructType ⟨config, d⟩ callee t args span) p
      fun t _ => Ty.Within φ t := by
  refine (gives_checking hp (hp.checker.gives_standFor ht)).bind fun t' p' hp' _ ht' => ?_
  cases t' with
  | prim k =>
    cases k with
    | any => exact Frame.gives_pure hp' (Ty.within_prim _)
    | never => exact Frame.gives_pure hp' (Ty.within_prim _)
    | _ => exact gives_notUsable hp' _ _ _
  | ctor ss =>
    refine gives_choose hp' (fun s hs u hu => ?_) ha _ _ _
    exact ht'.child (Ty.part_mem_children_ctor hs hu)
  | _ => exact gives_notUsable hp' _ _ _

theorem gives_recorded {act : Nat → PassM Typed} (kind : NodeKind)
    (h : (frame plan config).Gives act p fun typed _ => typed.Within φ) :
    (frame plan config).Gives (fun d => recorded kind (act d)) p fun typed _ => typed.Within φ :=
  h.bind fun _ _ hp' _ ht =>
    (gives_record hp' kind _).bind fun _ _ hp'' _ _ => Frame.gives_pure hp'' ht

mutual
theorem gives_infer (config : Config) (e : Expr) (h : ∀ u ∈ e.parts, u.isMisplaced → φ.malformed)
    {p : Pass} (hp : p.Sound plan config) :
    (frame plan config).Gives (fun d => infer ⟨config, d⟩ e) p fun typed _ => typed.Within φ := by
  cases e with
  | literal v span =>
    simp only [infer]
    have hv : ∀ vs, v = .list vs → φ.malformed := by
      rintro vs rfl
      exact h _ (List.mem_singleton_self _) rfl
    exact gives_recorded _ ((gives_literalType hp hv).bind fun _ _ hp' _ ht =>
      Frame.gives_pure hp' (within_ofType ht))
  | identifier name span =>
    simp only [infer]
    exact gives_recorded _ ((gives_identifierType hp name span).bind fun _ _ hp' _ ht =>
      Frame.gives_pure hp' (within_ofType ht))
  | object assignments span =>
    simp only [Expr.parts, List.forall_mem_cons] at h
    simp only [infer]
    refine gives_recorded _ ((gives_inferAssignments config span assignments h.2 hp
      Field.within_nil).bind fun fs _ hp' _ hf => Frame.gives_pure hp' (within_ofType ?_))
    exact Ty.within_object hf.apart hf.type (by simp)
  | array es span =>
    simp only [Expr.parts, List.forall_mem_cons] at h
    simp only [infer]
    refine gives_recorded _ ((gives_inferAll config es h.2 hp).bind fun ts _ hp' _ hts =>
      Frame.gives_pure hp' (within_ofType (Ty.within_tuple ?_)))
    exact List.forall_mem_map.mpr fun t ht => Ty.within_widen (hts t ht)
  | access owner name span =>
    simp only [Expr.parts, List.forall_mem_cons] at h
    simp only [infer]
    refine gives_recorded _ ((gives_infer config owner h.2 hp).bind fun o _ hp' _ ho => ?_)
    refine (gives_accessType hp' ho.type name span).bind fun t _ hp'' _ ht =>
      Frame.gives_pure hp'' ⟨ht, fun u hu => ?_⟩
    exact Option.some.inj hu ▸ ho.type
  | call callee args receiver span =>
    cases receiver with
    | none =>
      simp only [Expr.parts, List.forall_mem_cons, List.forall_mem_append] at h
      simp only [infer]
      refine gives_recorded _ ((gives_infer config callee h.2.1 hp).bind fun f _ hp' _ hf => ?_)
      refine (gives_inferAll config args h.2.2 hp').bind fun ts _ hp'' _ hts => ?_
      exact (gives_callType hp'' hf.type hf.owner hts callee span).bind fun _ _ hp₃ _ ht =>
        Frame.gives_pure hp₃ (within_ofType ht)
    | some receiver =>
      simp only [Expr.parts, List.forall_mem_cons, List.forall_mem_append] at h
      simp only [infer]
      refine gives_recorded _ ((gives_infer config callee h.2.1.1 hp).bind fun f _ hp' _ hf => ?_)
      refine (gives_infer config receiver h.2.1.2 hp').bind fun b _ hp'' _ hb => ?_
      refine (gives_inferAll config args h.2.2 hp'').bind fun ts _ hp₃ _ hts => ?_
      refine (gives_callType hp₃ hf.type (fun u hu => ?_) hts callee span).bind
        fun _ _ hp₄ _ ht => Frame.gives_pure hp₄ (within_ofType ht)
      exact Option.some.inj hu ▸ hb.type
  | construct callee args span =>
    simp only [Expr.parts, List.forall_mem_cons, List.forall_mem_append] at h
    simp only [infer]
    refine gives_recorded _ ((gives_infer config callee h.2.1 hp).bind fun f _ hp' _ hf => ?_)
    refine (gives_inferAll config args h.2.2 hp').bind fun ts _ hp'' _ hts => ?_
    exact (gives_constructType hp'' hf.type hts callee span).bind fun _ _ hp₃ _ ht =>
      Frame.gives_pure hp₃ (within_ofType ht)
  | misplaced node =>
    exact Frame.gives_throw (.inl ⟨h _ (List.mem_singleton_self _) rfl, by simp⟩)

theorem gives_inferAll (config : Config) (es : List Expr)
    (h : ∀ u ∈ Expr.partsOfAll es, u.isMisplaced → φ.malformed) {p : Pass}
    (hp : p.Sound plan config) :
    (frame plan config).Gives (fun d => inferAll ⟨config, d⟩ es) p
      fun ts _ => ∀ t ∈ ts, Ty.Within φ t := by
  cases es with
  | nil => exact Frame.gives_pure hp (by simp)
  | cons e es =>
    simp only [Expr.partsOfAll, List.forall_mem_append] at h
    simp only [inferAll]
    refine (gives_infer config e h.1 hp).bind fun t _ hp' _ ht => ?_
    refine (gives_inferAll config es h.2 hp').bind fun ts _ hp'' _ hts => Frame.gives_pure hp'' ?_
    exact List.forall_mem_cons.mpr ⟨ht.type, hts⟩

theorem gives_inferAssignments (config : Config) (span : Option Span)
    (assignments : List (Assignment Expr))
    (h : ∀ u ∈ Expr.partsOfAssignments assignments, u.isMisplaced → φ.malformed) {p : Pass}
    (hp : p.Sound plan config) {fs : List (Field Ty)} (hf : Field.Within φ fs) :
    (frame plan config).Gives (fun d => inferAssignments ⟨config, d⟩ span fs assignments) p
      fun fs _ => Field.Within φ fs := by
  cases assignments with
  | nil => exact Frame.gives_pure hp hf
  | cons a rest =>
    obtain ⟨name, value, place⟩ := a
    simp only [Expr.partsOfAssignments, List.forall_mem_append] at h
    simp only [inferAssignments]
    refine (gives_infer config value h.1 hp).bind fun t _ hp' _ ht => ?_
    have hrest := fun {p' : Pass} (hp' : p'.Sound plan config) =>
      gives_inferAssignments config span rest h.2 hp'
        (hf.put (f := ⟨name, t.type.widen, false⟩) (Ty.within_widen ht.type))
    split
    · exact (gives_say hp' rfl).bind fun _ _ hp'' _ _ => hrest hp''
    · exact hrest hp'
end

end ShapeCheck.Pass
