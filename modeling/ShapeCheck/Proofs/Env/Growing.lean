import ShapeCheck.Proofs.Env.Resolve
import ShapeCheck.Proofs.Fit.Closed
import ShapeCheck.Proofs.Fit.Finite
import ShapeCheck.Proofs.Ty.Arising

/-! Checks in an environment whose names are resolved as they come up. Each recipe runs once, and
in between the types that arise come from those that the names are bound to. -/

namespace ShapeCheck
variable {φ : Features} {plan : Plan φ} {variance : Variance} {memoize : Bool} {env env' : Env}
  {t t' : Ty} {B : Set Ty} {n k : Nat} {st : CheckState Env}

namespace Env

/-- No recipe runs. -/
structure Idle (plan : Plan φ) (env : Env) : Prop where
  kept : env.Kept plan
  resting : env.resolving = []

/-- Finitely many types, those of the names among them. -/
structure Covers (env : Env) (B : Set Ty) : Prop where
  finite : B.Finite
  base : Ty.Base B
  value : ∀ t ∈ env.values, t ∈ B

theorem exists_covers (env : Env) (s t : Ty) : ∃ B, env.Covers B ∧ s ∈ B ∧ t ∈ B := by
  obtain ⟨B, hf, hb, hr⟩ := Ty.exists_base (s :: t :: env.values)
  exact ⟨B, ⟨hf, hb, fun u hu => hr u (by simp [hu])⟩, hr s (by simp), hr t (by simp)⟩

theorem Still.waiting (h : env.Still env') : env'.waiting = env.waiting := by
  simp only [Env.waiting, h.cells]

theorem Covers.still (hB : env.Covers B) (h : env.Still env') : env'.Covers B := by
  refine ⟨hB.finite, hB.base, ?_⟩
  have hvalues : env'.values = env.values := by simp only [values, h.cells]
  rw [hvalues]
  exact hB.value

/-- A type and what it turned out to stand for. -/
structure Unwrapped (plan : Plan φ) (env : Env) (t t' : Ty) (env' : Env) : Prop where
  idle : env'.Idle plan
  grows : env.Grows env'
  found : Found plan env t t' env'
  within : Ty.Within φ t'
  itself : (∀ n, t ≠ .ref n) → t' = t
  grounded : ∀ n, t = .ref n → t'.Grounded
  changes : env'.waiting < env.waiting ∨
    env.Still env' ∧ ∀ B, env.Covers B → t' = t ∨ t' ∈ B

theorem Unwrapped.not_ref (h : Unwrapped plan env t t' env') : ∀ n, t' ≠ .ref n := by
  rcases t.ref_or_not_ref with ⟨n, hn⟩ | hn
  · exact (h.grounded n hn).not_ref
  · rw [h.itself hn]
    exact hn

theorem unwrapped_of_run (hi : env.Idle plan) (ht : Ty.Within φ t)
    (hrun : (unwrap t).run.run env = (.ok t', env')) : Unwrapped plan env t t' env' := by
  obtain ⟨hk, hstep, hfound, h⟩ := (gives_unwrap hi.kept hi.resting t).of_run hrun
  have hidle : env'.Idle plan := ⟨hk, hstep.1.trans hi.resting⟩
  rcases h with ⟨hn, rfl, rfl⟩ | ⟨n, rfl, hf, hl⟩
  · exact ⟨hidle, hstep.2, hfound, ht, fun _ => rfl, fun n he => (hn n he).elim,
      .inr ⟨.refl env', fun _ _ => .inl rfl⟩⟩
  · refine ⟨hidle, hstep.2, hfound, hf.within, fun hn => (hn n rfl).elim,
      fun _ _ => hf.grounded, ?_⟩
    rcases hl ((plan.named n).symm.trans (ht.here.ref rfl)) with hlt | hne | ⟨rfl, c, hm, hp⟩
    · exact .inl hlt
    · exact (hne hi.resting).elim
    · refine .inr ⟨.refl env', fun B hB => .inr (hB.value t' ?_)⟩
      exact List.mem_filterMap.mpr ⟨c, hm, by simp [hp]⟩

/-- What is known until a recipe runs that waits when `n` of them do. -/
def Held (n : Nat) (B : Set Ty) (p : Prop) (env : Env) : Prop :=
  env.waiting < n ∨ env.waiting = n ∧ env.Covers B ∧ p

theorem Held.imp {p q : Prop} (h : Held n B p env) (hpq : Ty.Base B → p → q) : Held n B q env :=
  h.imp_right (And.imp_right fun hp => ⟨hp.1, hpq hp.1.base hp.2⟩)

theorem Held.now {p : Prop} (h : Held n B p env) (he : env.waiting = n) : p := by
  rcases h with hlt | ⟨_, _, hp⟩
  · omega
  · exact hp

/-- What is known of several things is known of them together. -/
theorem held_all {α : Type} {xs : List α} {p : α → Prop} {q : Prop} (hne : xs ≠ [])
    (h : ∀ x ∈ xs, Held n B (p x) env) (hq : Ty.Base B → (∀ x ∈ xs, p x) → q) :
    Held n B q env := by
  obtain ⟨x, hx⟩ := List.exists_mem_of_ne_nil xs hne
  rcases h x hx with hlt | ⟨he, hB, _⟩
  · exact .inl hlt
  · exact .inr ⟨he, hB, hq hB.base fun y hy => (h y hy).now he⟩

theorem Unwrapped.held (h : Unwrapped plan env t t' env') (ht : Held n B (t ∈ Ty.blends B) env) :
    Held n B (t' ∈ Ty.blends B) env' := by
  rcases h.changes with hlt | ⟨hstill, hu⟩
  · refine .inl (Nat.lt_of_lt_of_le hlt ?_)
    rcases ht with ht | ⟨he, _⟩
    · exact Nat.le_of_lt ht
    · exact Nat.le_of_eq he
  · rcases ht with hlt | ⟨he, hB, hm⟩
    · exact .inl (hstill.waiting ▸ hlt)
    · refine .inr ⟨hstill.waiting.trans he, hB.still hstill, ?_⟩
      rcases hu B hB with rfl | hm'
      · exact hm
      · exact Ty.mem_blends_of_mem hm'

theorem object_mem_blends {fs : List (Field Ty)} {i : Option (Index Ty)} {o : Option String}
    (h : Ty.object fs i o ∈ Ty.blends B) : ∀ f ∈ fs, f.name ∈ Ty.fieldNames B := by
  rcases h with (h | ⟨_, _, he⟩) | ⟨_, _, he⟩
  · exact fun f hf => ⟨fs, i, o, h, f, hf, rfl⟩
  · cases he
  · cases he

end Env

/-- Lookups that do what the environment does between the recipes of a program, and that give
nothing else at any time. -/
class Lookup.Agrees [Lookup] (plan : Plan φ) : Prop where
  plain : ∀ {t : Ty}, (∀ n, t ≠ .ref n) → Lookup.unwrap t = pure t
  given : ∀ {t t' : Ty} {env env' : Env}, (Lookup.unwrap t).run.run env = (.ok t', env') →
    (Env.unwrap t).run.run env = (.ok t', env')
  unwrap : ∀ {t : Ty} {env : Env}, env.Idle plan → Ty.Within φ t →
    (Lookup.unwrap t).run.run env = (Env.unwrap t).run.run env
  resolve : ∀ {name : String} {env : Env} (span : Option Span), env.Idle plan → plan.known name →
    (Lookup.resolve name span).run.run env = (Env.resolve name span).run.run env
  follow : ∀ {recipe : Recipe Ty} {env : Env}, env.Idle plan → recipe.Safe φ (Ty.Firm φ) →
    (Lookup.follow recipe).run.run env = (Env.follow recipe).run.run env

instance (plan : Plan φ) : Lookup.Agrees plan where
  plain := Env.unwrap_eq_pure
  given := id
  unwrap _ _ := rfl
  resolve _ _ _ := rfl
  follow _ _ := rfl

namespace Env
variable [Lookup] [Lookup.Agrees plan]

theorem unwrapped_of_lookup (hi : env.Idle plan) (ht : Ty.Within φ t)
    (hrun : (Lookup.unwrap t).run.run env = (.ok t', env')) : Unwrapped plan env t t' env' :=
  unwrapped_of_run hi ht ((Lookup.Agrees.unwrap hi ht).symm.trans hrun)

theorem stops_of_lookup {e : Fault} (hi : env.Idle plan) (ht : Ty.Within φ t)
    (hrun : (Lookup.unwrap t).run.run env = (.error e, env')) : φ.Err e :=
  (gives_unwrap hi.kept hi.resting t).of_error ((Lookup.Agrees.unwrap hi ht).symm.trans hrun)

/-- The world of a check whose names are resolved on the way. -/
def finiteQuestions (plan : Plan φ) [Lookup.Agrees plan] (variance : Variance) (memoize : Bool) :
    FiniteQuestions (Lookup.surroundings variance memoize) where
  Err := φ.Err
  Good := Idle plan
  rank := waiting
  Still := Still
  Fine := Ty.Within φ
  Enough := Covers
  arising := Ty.arising
  finite h := Ty.finite_arising h.finite
  exists_enough {env s t} _ _ _ := by
    obtain ⟨B, hB, hs, ht⟩ := env.exists_covers s t
    exact ⟨B, hB, .inl (Ty.mem_blends_of_mem hs), .inl (Ty.mem_blends_of_mem ht)⟩
  any_mem h := .inl (Ty.mem_blends_of_mem h.base.any)
  child_mem h ht hu := h.base.arising_child ht hu
  fine_any := Ty.within_prim _
  fine_child h hu := h.child hu
  fine_callable h := by
    rcases h with h | h
    · exact h.here.shaped.1
    · exact h.here.shaped.1
  still_refl := .refl
  still_trans := .trans
  still_rank h := h.waiting
  still_enough h hB := hB.still h
  unwrap hi ht hrun := by
    have hu := unwrapped_of_lookup hi ht hrun
    refine ⟨hu.idle, hu.within, hu.changes.imp_right (And.imp_right fun h B hB hm => ?_)⟩
    rcases h B hB with rfl | hB'
    · exact hm
    · exact .inl (Ty.mem_blends_of_mem hB')
  stops hi ht hrun := stops_of_lookup hi ht hrun

theorem Held.later {p : Prop} (h : Held n B p env)
    (hl : (finiteQuestions plan variance memoize).Later env env') : Held n B p env' := by
  rcases h with hlt | ⟨he, hB, hp⟩
  · exact .inl (Nat.lt_of_le_of_lt hl.rank_le hlt)
  · rcases hl with hl | hl
    · exact .inl (Nat.lt_of_lt_of_eq hl he)
    · exact .inr ⟨hl.waiting.trans he, hB.still hl, hp⟩

theorem Unwrapped.later (h : Unwrapped plan env t t' env') :
    (finiteQuestions plan variance memoize).Later env env' :=
  h.changes.imp_right And.left

theorem gives_standFor (hi : st.world.Idle plan) (ht : Ty.Within φ t) :
    (finiteQuestions plan variance memoize).frame.Gives
      (fun _ => (Lookup.surroundings variance memoize).resolve t) st
      fun t' st' => Unwrapped plan st.world t t' st'.world := by
  refine Frame.gives_inWorld (fun t' w' hrun => ?_) fun e w' hrun =>
    stops_of_lookup hi ht hrun
  have hu := unwrapped_of_lookup hi ht hrun
  exact ⟨hu.idle, ⟨rfl, hu.later⟩, hu⟩

/-- Combining types while a question is worked on that began with `n` recipes waiting and types
among those that arise from `B`. Nothing is counted. -/
def ledger (plan : Plan φ) [Lookup.Agrees plan] (variance : Variance) (memoize : Bool) (n : Nat)
    (B : Set Ty) :
    Ledger (Lookup.surroundings variance memoize) where
  toFrame := (finiteQuestions plan variance memoize).frame
  ask := check (Lookup.surroundings variance memoize)
  depth := id
  In st t := Ty.Within φ t ∧ Held n B (t ∈ Ty.blends B) st.world
  Name st name := Held n B (name ∈ Ty.fieldNames B) st.world
  Inters := φ.inter
  Indexes := φ.index
  cost _ := 0
  fields _ := 0
  index _ := 0
  in_stable _ _ _ hs h := ⟨h.1, h.2.later hs.2⟩
  name_stable _ _ _ hs h := h.later hs.2
  child h hu := ⟨h.1.child hu, h.2.imp fun hB hm => hB.blends_child hm hu⟩
  apart h := ⟨h.1.here.shaped, fun f hf => h.2.imp fun _ hm => object_mem_blends hm f hf⟩
  inters h := h.1.here.inter rfl
  indexes h := h.1.here.index rfl
  never h := ⟨⟨Ty.within_prim _, h.2.imp fun hB _ => Ty.mem_blends_of_mem hB.never⟩, Nat.le_refl _⟩
  join hne h := ⟨⟨Ty.within_join fun t ht => (h t ht).1,
    held_all hne (fun t ht => (h t ht).2) fun hB hm => hB.join_mem hm⟩, Nat.zero_le _⟩
  meet {st a b} hi ha hb hau hbu := by
    refine ⟨⟨Ty.within_meet hi (by simpa using ⟨ha.1, hb.1⟩), ?_⟩, Nat.zero_le _⟩
    have hab : ∀ t ∈ [a, b], Held n B (t ∈ Ty.blends B) st.world := by simpa using ⟨ha.2, hb.2⟩
    exact held_all (by simp) hab fun hB hm =>
      hB.meet_mem (hm a (by simp)) (hm b (by simp)) hau hbu
  fields_object _ := by simp [Field.total]
  fields_union ms := by simp
  fields_inter ms := by simp
  index_object _ := Nat.le_refl _
  index_inter _ := Nat.le_refl _
  unwrap h := Lookup.Agrees.plain plan h
  resolve hi ht := (gives_standFor hi ht.1).imp fun _ _ _ _ hu => ⟨hu.within, hu.held ht.2⟩

theorem found_grounded (ha : (ledger plan variance memoize n B).Answers 0 st) (ht : t.Grounded) :
    (ledger plan variance memoize n B).Found st k t := by
  refine Ledger.found_of_refs (Q := Ty.Grounded) (fun ms h u hu => ?_) (fun m _ h => ?_) ha ht
    (Nat.le_refl 0) ⟨t.size + k, fun _ => id⟩
  · rcases h with h | h
    · exact h.member (.inl rfl) u hu
    · exact h.member (.inr rfl) u hu
  · exact (h.not_ref m rfl).elim

/-- References stand for types without references on the way to their properties. -/
theorem found_all (ha : (ledger plan variance memoize n B).Answers 0 st) (t : Ty) :
    (ledger plan variance memoize n B).Found st k t := by
  refine Ledger.found_of_refs (Q := fun _ => True) (fun _ _ _ _ => trivial) (fun m k _ => ?_) ha
    trivial (Nat.le_refl 0) ⟨t.size + k, fun _ => id⟩
  refine Ledger.found_ref ⟨_, fun _ => id⟩ fun {st'} hi hs ht => ?_
  refine (gives_standFor hi ht.1).imp fun t' st'' _ hs' hu => ?_
  exact ⟨⟨hu.within, hu.held ht.2⟩, hu.not_ref,
    found_grounded (ha.later (Frame.trans _ hs hs')) (hu.grounded m rfl), Nat.le_refl 0,
    Nat.le_refl 0⟩

theorem objectOf_combined {fs : List (Field Ty)} {i : Option (Index Ty)} (hx : φ.inter)
    (hf : (ledger plan variance memoize n B).Holds st k fs)
    (hi : (ledger plan variance memoize n B).Indexed k i st) :
    Ty.objectOf fs i none = .ok (.object fs i none) ∨
      ∃ e, Ty.objectOf fs i none = .error e ∧ φ.Err e := by
  have hout := Ty.objectOf_outcome none hf.apart
    (fun f hm => (hf.type f hm).1.orderly) fun j hj => (hi j hj).2.1.1.orderly
  refine hout.imp_right fun ⟨e, he, hm, hne⟩ => ⟨e, he, .inr ⟨hm, hx, ?_⟩⟩
  obtain ⟨j, hj⟩ := Option.ne_none_iff_exists'.mp hne
  exact (hi j hj).1

theorem combines : (finiteQuestions plan variance memoize).Combines := by
  intro n B st ms ho hi hm
  have hx : φ.inter := hm.1.here.inter rfl
  have hin : (ledger plan variance memoize n B).In st (.inter ms) := by
    refine ⟨hm.1, Held.imp hm.2 fun _ h => ?_⟩
    rcases h with h | ⟨_, _, he, _⟩
    · exact h
    · cases he
  have ha : (ledger plan variance memoize n B).Answers 0 st := fun hi' hs' ha hb _ =>
    (ho.judged hi' hs' ⟨ha.1, ha.2.imp fun _ => .inl⟩ ⟨hb.1, hb.2.imp fun _ => .inl⟩).gives
  refine (Ledger.gives_combinedObject ha hi hin (found_all ha _) (Nat.le_refl 0)
    fun _ _ hf hj => objectOf_combined hx hf hj).imp fun r st' _ hs' h shape he => ?_
  obtain ⟨fs, i, rfl, hf, hj⟩ := h shape he
  refine ⟨Ty.within_object hf.apart (fun f hm => (hf.type f hm).1) fun j he => ?_, ?_⟩
  · exact ⟨(hj j he).1, (hj j he).2.1.1⟩
  · -- If no recipe has run meanwhile, all names and types that were collected are still known.
    refine (hm.later _ hs'.2).2.imp_right fun ⟨he, hB, _⟩ => ⟨he, hB, .inr ⟨fs, i, rfl, ?_⟩⟩
    exact ⟨hf.apart, fun f hm => (hf.name f hm).now he, fun f hm => (hf.type f hm).2.now he,
      fun j hm => (hj j hm).2.1.2.now he⟩

/-- Every check in the environment of a program comes to an end. -/
theorem gives_check {s t : Ty} (hi : st.world.Idle plan) (hs : Ty.Within φ s) (ht : Ty.Within φ t) :
    (finiteQuestions plan variance memoize).frame.Gives
      (fun d => check (Lookup.surroundings variance memoize) d s t) st fun _ _ => True :=
  FiniteQuestions.check_settles combines hi hs ht

theorem gives_propertyType (hi : st.world.Idle plan) (ht : Ty.Within φ t) (name : String) :
    (finiteQuestions plan variance memoize).frame.Gives
      (fun d => Member.propertyType (Lookup.surroundings variance memoize)
        (check (Lookup.surroundings variance memoize) d) d t name) st
      fun r _ => ∀ u, r = some u → Ty.Within φ u := by
  obtain ⟨B, hB, hm, _⟩ := st.world.exists_covers t t
  have hin : (ledger plan variance memoize st.world.waiting B).In st t :=
    ⟨ht, .inr ⟨rfl, hB, Ty.mem_blends_of_mem hm⟩⟩
  have ha : (ledger plan variance memoize st.world.waiting B).Answers 0 st :=
    fun hi' _ ha hb _ => gives_check hi' ha.1 hb.1
  refine ((ledger plan variance memoize st.world.waiting B).resolve hi hin).bind
    fun t' st₁ hi₁ hs₁ hin₁ => ?_
  have hf := found_all (k := 0) (ha.later hs₁) t'
  split
  · exact Frame.gives_pure hi₁ fun u hu => Option.some.inj hu ▸ Ty.within_prim _
  split
  · exact Frame.gives_pure hi₁ fun u hu => Option.some.inj hu ▸ Ty.within_prim _
  refine (hf.fields hi₁ (Frame.refl _ _) hin₁).bind fun r st₂ hi₂ hs₂ hr => ?_
  cases hfind : r.bind (Field.find? · name) with
  | none =>
    refine (hf.index hi₂ hs₂ (Ledger.in_stable _ _ _ _ hs₂ hin₁)).bind
      fun i st₃ hi₃ _ hx => Frame.gives_pure hi₃ fun u hu => ?_
    obtain ⟨j, hj, rfl⟩ := Option.map_eq_some_iff.mp hu
    exact (hx j hj).2.1.1
  | some f =>
    obtain ⟨fs, hfs, hf⟩ := Option.bind_eq_some_iff.mp hfind
    have hft : Ty.Within φ f.type := ((hr fs hfs).type f (Field.find?_eq_some hf).1).1
    refine Frame.gives_pure hi₂ fun u hu => Option.some.inj hu ▸ ?_
    split
    · exact Ty.within_join (by simpa using ⟨hft, Ty.within_prim _⟩)
    · exact hft

end Env
end ShapeCheck
