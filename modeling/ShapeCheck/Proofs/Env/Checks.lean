import ShapeCheck.Proofs.Env.Growing
import ShapeCheck.Proofs.Fit.Hindsight
import ShapeCheck.Proofs.Fit.Sound

/-! Checks in an environment whose names are resolved on the way. What is remembered, and the
verdict of every check, is right for the names as they are bound in the end. -/

namespace ShapeCheck
variable {φ : Features} {N : Naming} {variance : Variance} {memoize : Bool} {s t : Ty}

namespace Naming

/-- The rules read with a naming. -/
def reading (N : Naming) (variance : Variance) : Reading := ⟨N.look, variance⟩

/-- Surroundings in which every name is bound already. -/
def surroundings (N : Naming) (variance : Variance) (memoize : Bool) : Surroundings Unit where
  variance := variance
  memoize := memoize
  unwrap t := pure (N.look t)
  objectOf fs index := Ty.objectOf fs index none

theorem governs (N : Naming) (variance : Variance) (memoize : Bool) (Adm : Ty → Prop) :
    (N.reading variance).Governs (N.surroundings variance memoize) (fun _ => True) Adm where
  variance := rfl
  unwrap _ _ := ⟨(), trivial, rfl⟩

theorem Fair.faithful {defined : String → Bool} (h : N.Fair φ defined) (variance : Variance) :
    (N.reading variance).Faithful (Ty.Within φ) where
  any := Ty.within_prim _
  child ht hu := ht.child hu
  look {t} ht := by
    cases t with
    | ref n => exact (h.firm n).within
    | _ => exact ht
  proper ht := ht.proper
  look_same := look_same_of_not_ref fun _ => N.look_of_not_ref
  look_look t := by
    cases t with
    | ref n => exact N.look_of_not_ref (h.firm n).grounded.not_ref
    | _ => rfl

end Naming

theorem Ty.Within.notInter (h : Ty.Within φ t) (hi : ¬φ.inter) : ∀ ms, t ≠ .inter ms :=
  fun _ he => hi (h.here.inter he)

namespace Env
variable {plan : Plan φ} {env env' env'' : Env} {α : Type} {st st' : CheckState Env}

/-- Names were resolved, and nothing else was reported or left for later. -/
structure Evolves (φ : Features) (env env' : Env) : Prop where
  grows : env.Grows env'
  tally : ∀ N : Naming, N.Completes φ env' → (env'.tally N).Perm (env.tally N)

theorem Evolves.refl (env : Env) : Evolves φ env env := ⟨.refl env, fun _ _ => .refl _⟩

theorem Evolves.trans (h : Evolves φ env env') (h' : Evolves φ env' env'') :
    Evolves φ env env'' :=
  ⟨h.grows.trans h'.grows,
    fun N hN => (h'.tally N hN).trans (h.tally N (hN.of_grows h'.grows))⟩

variable [Lookup] [Lookup.Agrees plan]

/-- A check that resolves names on the way, beside one that has them all from the start. -/
def hindsight (plan : Plan φ) [Lookup.Agrees plan] (N : Naming) (variance : Variance)
    (memoize : Bool) :
    Hindsight (Lookup.surroundings variance memoize) (N.surroundings variance memoize) where
  Good := Idle plan
  Step := Evolves φ
  Sees := N.Completes φ
  refl := .refl
  trans := .trans
  sees h := .of_grows h.grows
  unwrap {env env' t t'} hi hrun := by
    have hrun := Lookup.Agrees.given plan hrun
    obtain ⟨hk, hstep, hfound, -⟩ := (gives_unwrap hi.kept hi.resting t).of_run hrun
    exact ⟨⟨hk, hstep.1.trans hi.resting⟩, ⟨hstep.2, hfound.tally⟩,
      fun hN => congrArg pure (hfound.look N hN)⟩
  variance := rfl
  memoize := rfl
  objectOf := rfl

/-- A checker between two questions: nothing is under way, and without intersections all it
remembers is right. -/
structure Checker (plan : Plan φ) (variance : Variance) (st : CheckState Env) : Prop where
  idle : st.world.Idle plan
  pending : st.memo.pending = []
  sound : ¬φ.inter → ∀ N : Naming, N.Completes φ st.world →
    st.memo.Sound (N.reading variance) (Ty.Within φ)

/-- Questions put to a checker. -/
def checks (plan : Plan φ) [Lookup.Agrees plan] (variance : Variance) (memoize : Bool) :
    Frame (CheckState Env) where
  Err := φ.Err
  Inv := Checker plan variance
  Step st st' := (finiteQuestions plan variance memoize).Later st.world st'.world ∧
    Evolves φ st.world st'.world
  refl st := ⟨.inr ((finiteQuestions plan variance memoize).still_refl st.world), .refl st.world⟩
  trans h h' := ⟨h.1.trans _ h'.1, h.2.trans h'.2⟩

/-- What comes to an end in a changing environment is right if it is so with names that are bound
from the start. -/
theorem gives_reflected {act : Nat → CheckM Env α} {act' : Naming → Nat → CheckM Unit α}
    {Post : α → CheckState Env → Prop} {Right : Naming → α → Prop}
    (hc : Checker plan variance st)
    (h : (finiteQuestions plan variance memoize).frame.Gives act st Post)
    (hr : ∀ N d, (hindsight plan N variance memoize).mirror.Reflects (act d) (act' N d))
    (hs : ¬φ.inter → ∀ (N : Naming) (d : Nat) (a : α) (m : Memo), N.Completes φ st.world →
      (act' N d).run.run ⟨st.memo, ()⟩ = (.ok a, ⟨m, ()⟩) →
      m.Sound (N.reading variance) (Ty.Within φ) ∧ Right N a) :
    (checks plan variance memoize).Gives act st fun a st' => Post a st' ∧
      (¬φ.inter → ∀ N : Naming, N.Completes φ st'.world → Right N a) := by
  obtain ⟨bound, r, st', hrun, hres⟩ := h
  refine ⟨bound, r, st', hrun, ?_⟩
  cases r with
  | error e => exact hres
  | ok a =>
    obtain ⟨hidle, hstep, hpost⟩ := hres
    have hrun := hrun bound (Nat.le_refl _)
    obtain ⟨-, hev, -⟩ := hr st.world.naming bound hc.idle hrun
    have hboth : ¬φ.inter → ∀ N : Naming, N.Completes φ st'.world →
        st'.memo.Sound (N.reading variance) (Ty.Within φ) ∧ Right N a := by
      intro hni N hN
      obtain ⟨-, hev, hfix⟩ := hr N bound hc.idle hrun
      exact hs hni N bound a st'.memo (hN.of_grows hev.grows) (hfix hN)
    exact ⟨⟨hidle, hstep.1.trans hc.pending, fun hni N hN => (hboth hni N hN).1⟩, ⟨hstep.2, hev⟩,
      hpost, fun hni N hN => (hboth hni N hN).2⟩

/-- Every check comes to an end, with a yes exactly if the types are assignable when all names are
bound. -/
theorem Checker.gives_check (hc : Checker plan variance st) (hs : Ty.Within φ s)
    (ht : Ty.Within φ t) :
    (checks plan variance memoize).Gives
      (fun d => check (Lookup.surroundings variance memoize) d s t) st fun v st' =>
        ¬φ.inter → ∀ N : Naming, N.Completes φ st'.world →
          (v = none ↔ (N.reading variance).Assignable s t) := by
  refine (gives_reflected hc (Env.gives_check hc.idle hs ht)
    (fun N d => Mirror.reflects_check d s t) fun hni N d v m hN hrun => ?_).imp
    fun v st' _ _ h => h.2
  have hr := check_right (N.governs variance memoize _) (hN.toFair.faithful variance)
    (fun h => h.notInter hni) ⟨trivial, hc.sound hni N hN⟩ hc.pending hs ht hrun
  exact ⟨hr.1.2, hr.2.2⟩

/-- What asks nothing itself leaves a right memory, if it does so with names that are bound from the
start. -/
theorem gives_kept {act : Nat → CheckM Env α} {act' : Naming → Nat → CheckM Unit α}
    {Post : α → CheckState Env → Prop} (hc : Checker plan variance st)
    (h : (finiteQuestions plan variance memoize).frame.Gives act st Post)
    (hr : ∀ N d, (hindsight plan N variance memoize).mirror.Reflects (act d) (act' N d))
    (hs : ¬φ.inter → ∀ (N : Naming) (d : Nat) (a : α) (m : Memo), N.Completes φ st.world →
      (act' N d).run.run ⟨st.memo, ()⟩ = (.ok a, ⟨m, ()⟩) →
      m.Sound (N.reading variance) (Ty.Within φ)) :
    (checks plan variance memoize).Gives act st Post :=
  (gives_reflected hc h hr fun hni N d a m hN hrun => ⟨hs hni N d a m hN hrun, trivial⟩).imp
    fun _ _ _ _ h => h.1

theorem Checker.gives_standFor (hc : Checker plan variance st) (ht : Ty.Within φ t) :
    (checks plan variance memoize).Gives
      (fun _ => (Lookup.surroundings variance memoize).resolve t) st
        fun t' _ => Ty.Within φ t' := by
  refine (gives_kept hc (Env.gives_standFor hc.idle ht) (fun N _ => Mirror.reflects_resolve t)
    fun hni N d t' m hN hrun => ?_).imp fun t' st' _ _ h => h.within
  cases hrun
  exact hc.sound hni N hN

theorem Checker.gives_propertyType (hc : Checker plan variance st) (ht : Ty.Within φ t)
    (name : String) :
    (checks plan variance memoize).Gives
      (fun d => Member.propertyType (Lookup.surroundings variance memoize)
        (check (Lookup.surroundings variance memoize) d) d t name) st
      fun r _ => ∀ u, r = some u → Ty.Within φ u := by
  refine gives_kept hc (Env.gives_propertyType hc.idle ht name)
    (fun N d => Mirror.reflects_propertyType (Mirror.reflects_check d) d t name)
    fun hni N d r m hN hrun => ?_
  have hi : (soundFrame (N.reading variance) (fun _ => True) (Ty.Within φ)).Inv ⟨st.memo, ()⟩ :=
    ⟨trivial, hc.sound hni N hN⟩
  have hg := ShapeCheck.gives_propertyType (N.governs variance memoize _)
    (hN.toFair.faithful variance) (fun h => h.notInter hni)
    (check (N.surroundings variance memoize) d) d hi ht name
  exact (hg.of_run hrun).1.2

end Env
end ShapeCheck
