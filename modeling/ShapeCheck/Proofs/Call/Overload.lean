import ShapeCheck.Call.Overload
import ShapeCheck.Call.Receiver
import ShapeCheck.Proofs.Env.Checks

/-! Choosing a signature and checking a receiver come to an end, whatever the types are. -/

namespace ShapeCheck.Call
variable {φ : Features} {plan : Plan φ} {variance : Variance} {memoize : Bool} {st : CheckState Env}
  {args : List Ty} {ss : List (Signature Ty)}

variable [Lookup] [Lookup.Agrees plan]

theorem gives_matchArguments (i : Nat) {ps : List (Param Ty)} (hi : Env.Checker plan variance st)
    (hp : ∀ p ∈ ps, Ty.Within φ p.type) (ha : ∀ a ∈ args, Ty.Within φ a) :
    (Env.checks plan variance memoize).Gives
      (fun d => matchArguments (check (Lookup.surroundings variance memoize) d) i ps args) st
      fun _ _ => True := by
  induction ps generalizing i args st with
  | nil => exact Frame.gives_pure hi trivial
  | cons p ps ih =>
    cases args with
    | nil => exact Frame.gives_pure hi trivial
    | cons a args =>
      obtain ⟨hp, hps⟩ := List.forall_mem_cons.mp hp
      obtain ⟨ha, has⟩ := List.forall_mem_cons.mp ha
      refine (hi.gives_check ha hp).bind fun v st' hi' _ _ => ?_
      cases v with
      | none => exact ih (i + 1) hi' hps has
      | some m => exact Frame.gives_pure hi' trivial

theorem gives_refusal? {s : Signature Ty} (hi : Env.Checker plan variance st)
    (hs : ∀ u ∈ s.parts, Ty.Within φ u) (ha : ∀ a ∈ args, Ty.Within φ a) :
    (Env.checks plan variance memoize).Gives
      (fun d => refusal? (check (Lookup.surroundings variance memoize) d) s args) st
      fun _ _ => True := by
  have hparam : ∀ p ∈ s.params, Ty.Within φ p.type := fun p hp =>
    hs p.type (Ty.mem_parts.mpr (.inl ⟨p, hp, rfl⟩))
  unfold refusal?
  split
  · have hpositional : ∀ p ∈ s.positional, Ty.Within φ p.type := fun p hp =>
      hparam p (Signature.mem_params_of_positional hp)
    refine (gives_matchArguments 0 hi hpositional ha).bind fun r st' hi' _ _ => ?_
    cases r with
    | some r => exact Frame.gives_pure hi' trivial
    | none =>
      unfold matchTrailing
      cases hr : s.rest? with
      | none => exact Frame.gives_pure hi' trivial
      | some p =>
        have harray : Ty.Within φ (.array (Ty.join (args.drop s.positional.length))) :=
          Ty.within_array (Ty.within_join fun t ht => ha t (List.mem_of_mem_drop ht))
        refine (hi'.gives_check harray (hparam p (Signature.mem_params_of_rest hr))).bind
          fun v st'' hi'' _ _ => ?_
        cases v with
        | none => exact Frame.gives_pure hi'' trivial
        | some m => exact Frame.gives_pure hi'' trivial
  · exact Frame.gives_pure hi trivial

/-- The signature that is chosen is one of those given. -/
theorem gives_resolveFrom (i : Nat) (hi : Env.Checker plan variance st)
    (hs : ∀ s ∈ ss, ∀ u ∈ s.parts, Ty.Within φ u) (ha : ∀ a ∈ args, Ty.Within φ a) :
    (Env.checks plan variance memoize).Gives
      (fun d => resolveFrom (check (Lookup.surroundings variance memoize) d) args i ss) st
      fun r _ => ∀ c, r.chosen = some c → c.2 ∈ ss := by
  induction ss generalizing i st with
  | nil => exact Frame.gives_pure hi (by simp)
  | cons s ss ih =>
    obtain ⟨hs, hss⟩ := List.forall_mem_cons.mp hs
    refine (gives_refusal? hi hs ha).bind fun r st' hi' _ _ => ?_
    cases r with
    | none =>
      refine Frame.gives_pure hi' fun c hc => ?_
      cases hc
      exact List.mem_cons_self
    | some refusal =>
      refine (ih (i + 1) hi' hss).bind fun later st'' hi'' _ hl => Frame.gives_pure hi'' ?_
      exact fun c hc => List.mem_cons_of_mem s (hl c hc)

theorem gives_checkReceiver {required bound : Option Ty} (hi : Env.Checker plan variance st)
    (hr : ∀ t, required = some t → Ty.Within φ t) (hb : ∀ t, bound = some t → Ty.Within φ t) :
    (Env.checks plan variance memoize).Gives
      (fun d => checkReceiver (check (Lookup.surroundings variance memoize) d) required bound) st
      fun _ _ => True := by
  cases required with
  | none => exact Frame.gives_pure hi trivial
  | some r =>
    cases bound with
    | none => exact Frame.gives_pure hi trivial
    | some b =>
      refine (hi.gives_check (hb b rfl) (hr r rfl)).bind fun v st' hi' _ _ => ?_
      cases v with
      | none => exact Frame.gives_pure hi' trivial
      | some m => exact Frame.gives_pure hi' trivial

end ShapeCheck.Call
