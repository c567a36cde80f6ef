import ShapeCheck.Call.Overload
import ShapeCheck.Proofs.Fit.Join

/-! A call is given to the first signature that fits it argument by argument, though the trailing
arguments are put into one union before they are checked. -/

namespace ShapeCheck

/-! What it means to fit, in terms of single arguments. -/

namespace Call
variable (fits : Ty → Ty → Prop) (s : Signature Ty) (args : List Ty)

/-- The signature takes that many arguments. -/
def TakesCount (n : Nat) : Prop := s.minArity ≤ n ∧ (s.rest? = none → n ≤ s.params.length)

/-- The argument at a position, if there is one, fits the parameter there, if there is one. -/
def FitsAt (ps : List (Param Ty)) (i : Nat) : Prop :=
  ∀ p a, ps[i]? = some p → args[i]? = some a → fits a p.type

/-- Each argument beyond the positions fits the elements of the rest parameter. -/
def FitsRest : Prop :=
  ∀ r e, s.rest? = some r → r.type = .array e → ∀ a ∈ args.drop s.positional.length, fits a e

/-- The signature fits the call, argument by argument. -/
structure Applicable : Prop where
  count : TakesCount s args.length
  positional : ∀ i, FitsAt fits args s.positional i
  trailing : FitsRest fits s args

/-- What is wrong with a signature that is not applicable: the number of arguments, or the first
argument that does not fit its parameter, or else those beyond the positions. -/
def FailsAt : Option Nat → Prop
  | none => ¬TakesCount s args.length
  | some i => TakesCount s args.length ∧
      ((¬FitsAt fits args s.positional i ∧ ∀ j < i, FitsAt fits args s.positional j) ∨
        (∀ j, FitsAt fits args s.positional j) ∧ ¬FitsRest fits s args ∧ i = s.positional.length)

/-- A resolution chooses the first applicable signature and passes over those before it, each for
what is wrong with it. -/
structure FirstMatch (ss : List (Signature Ty)) (r : Resolution) : Prop where
  least : ∀ i s, r.chosen = some (i, s) ↔ ss[i]? = some s ∧ Applicable fits s args ∧
    ∀ j u, j < i → ss[j]? = some u → ¬Applicable fits u args
  unmatched : r.chosen = none ↔ ∀ s ∈ ss, ¬Applicable fits s args
  passed : ∀ i s, r.chosen = some (i, s) →
    r.rejections.map (fun q => (q.signature, q.index)) = (ss.take i).zipIdx
  exhausted : r.chosen = none → r.rejections.map (fun q => (q.signature, q.index)) = ss.zipIdx
  blames : ∀ q ∈ r.rejections, FailsAt fits q.signature args q.argument?

variable {fits s args}

theorem FailsAt.not_applicable {o : Option Nat} (h : FailsAt fits s args o) :
    ¬Applicable fits s args := by
  intro ha
  cases o with
  | none => exact h ha.count
  | some i =>
    rcases h.2 with ⟨hno, _⟩ | ⟨_, hno, _⟩
    · exact hno (ha.positional i)
    · exact hno ha.trailing

theorem accepts_iff {n : Nat} : accepts s n ↔ TakesCount s n := by
  unfold accepts TakesCount Signature.positional
  cases s.rest? <;> simp

theorem fitsAt_zero {p : Param Ty} {ps : List (Param Ty)} {a : Ty} :
    FitsAt fits (a :: args) (p :: ps) 0 ↔ fits a p.type := by
  simp [FitsAt]

theorem fitsAt_succ {p : Param Ty} {ps : List (Param Ty)} {a : Ty} {i : Nat} :
    FitsAt fits (a :: args) (p :: ps) (i + 1) ↔ FitsAt fits args ps i := by
  simp [FitsAt]

theorem fitsRest_iff {r : Param Ty} {e : Ty} (hr : s.rest? = some r) (he : r.type = .array e) :
    FitsRest fits s args ↔ ∀ a ∈ args.drop s.positional.length, fits a e := by
  constructor
  · exact fun h => h r e hr he
  · intro h r' e' hr' he'
    cases hr.symm.trans hr'
    cases he.symm.trans he'
    exact h

/-- How arguments and parameters compare that begin at a position. -/
def Scanned (fits : Ty → Ty → Prop) (args : List Ty) (ps : List (Param Ty)) (start : Nat) :
    Option Refusal → Prop
  | none => ∀ i, FitsAt fits args ps i
  | some q => ∃ i p m, q = .argument (start + i) p m ∧ ¬FitsAt fits args ps i ∧
      ∀ j < i, FitsAt fits args ps j

theorem Scanned.cons {p : Param Ty} {ps : List (Param Ty)} {a : Ty} {start : Nat}
    {o : Option Refusal} (ha : fits a p.type) (h : Scanned fits args ps (start + 1) o) :
    Scanned fits (a :: args) (p :: ps) start o := by
  have hnext : ∀ {i : Nat}, (∀ j < i, FitsAt fits args ps j) →
      ∀ j < i + 1, FitsAt fits (a :: args) (p :: ps) j := by
    intro i hall j hj
    cases j with
    | zero => exact fitsAt_zero.mpr ha
    | succ j => exact fitsAt_succ.mpr (hall j (by omega))
  cases o with
  | none => exact fun i => hnext (fun j _ => h j) i (Nat.lt_succ_self i)
  | some q =>
    obtain ⟨i, name, m, rfl, hno, hall⟩ := h
    exact ⟨i + 1, name, m, by rw [Nat.add_assoc, Nat.add_comm 1], mt fitsAt_succ.mp hno, hnext hall⟩

/-- The signatures that were passed over are those before the chosen one. -/
structure Passes (fits : Ty → Ty → Prop) (args : List Ty) (start : Nat) (ss : List (Signature Ty))
    (r : Resolution) : Prop where
  passed : r.rejections.map (fun q => (q.signature, q.index)) =
    (ss.take r.rejections.length).zipIdx start
  chosen : r.chosen = ss[r.rejections.length]?.map (start + r.rejections.length, ·)
  applicable : ∀ s, ss[r.rejections.length]? = some s → Applicable fits s args
  blames : ∀ q ∈ r.rejections, FailsAt fits q.signature args q.argument?

namespace Passes
variable {ss : List (Signature Ty)} {r : Resolution} {start : Nat}

theorem cons {q : Rejection} (hq : FailsAt fits q.signature args q.argument?)
    (hi : q.index = start) (h : Passes fits args (start + 1) ss r) :
    Passes fits args start (q.signature :: ss) { r with rejections := q :: r.rejections } where
  passed := by simp [h.passed, hi]
  chosen := by
    rw [h.chosen]
    simp [Nat.add_assoc, Nat.add_comm 1]
  applicable s hs := h.applicable s (by simpa using hs)
  blames := List.forall_mem_cons.mpr ⟨hq, h.blames⟩

theorem not_applicable (h : Passes fits args start ss r) {j : Nat} (hj : j < r.rejections.length)
    (hs : ss[j]? = some s) : ¬Applicable fits s args := by
  have hmem : s ∈ (r.rejections.map fun q => (q.signature, q.index)).map Prod.fst := by
    rw [h.passed, List.zipIdx_map_fst]
    exact List.mem_of_getElem? (by rw [List.getElem?_take_of_lt hj, hs])
  simp only [List.map_map, List.mem_map, Function.comp] at hmem
  obtain ⟨q, hq, rfl⟩ := hmem
  exact (h.blames q hq).not_applicable

theorem chosen_iff (h : Passes fits args 0 ss r) {i : Nat} :
    r.chosen = some (i, s) ↔ i = r.rejections.length ∧ ss[i]? = some s := by
  rw [h.chosen]
  simp only [Nat.zero_add, Option.map_eq_some_iff, Prod.mk.injEq]
  constructor
  · rintro ⟨u, hu, rfl, rfl⟩
    exact ⟨rfl, hu⟩
  · rintro ⟨rfl, hs⟩
    exact ⟨s, hs, rfl, rfl⟩

theorem unmatched_iff (h : Passes fits args 0 ss r) :
    r.chosen = none ↔ ss.length ≤ r.rejections.length := by
  rw [h.chosen, Option.map_eq_none_iff, List.getElem?_eq_none_iff]

theorem firstMatch (h : Passes fits args 0 ss r) : FirstMatch fits args ss r where
  least i s := by
    rw [h.chosen_iff]
    constructor
    · rintro ⟨rfl, hs⟩
      exact ⟨hs, h.applicable s hs, fun j u hj hu => h.not_applicable hj hu⟩
    · rintro ⟨hs, happ, hfirst⟩
      refine ⟨?_, hs⟩
      rcases Nat.lt_trichotomy i r.rejections.length with hlt | heq | hgt
      · exact (h.not_applicable hlt hs happ).elim
      · exact heq
      · have hlen := (List.getElem?_eq_some_iff.mp hs).1
        have hu := List.getElem?_eq_getElem (Nat.lt_trans hgt hlen)
        exact (hfirst _ _ hgt hu (h.applicable _ hu)).elim
  unmatched := by
    rw [h.unmatched_iff]
    constructor
    · intro hlen s hs
      obtain ⟨j, hj, rfl⟩ := List.getElem_of_mem hs
      exact h.not_applicable (Nat.lt_of_lt_of_le hj hlen) (List.getElem?_eq_getElem hj)
    · intro hnone
      by_contra hlt
      have hu := List.getElem?_eq_getElem (Nat.lt_of_not_le hlt)
      exact hnone _ (List.mem_of_getElem? hu) (h.applicable _ hu)
  passed i s hs := by rw [h.passed, (h.chosen_iff.mp hs).1]
  exhausted hn := by rw [h.passed, List.take_of_length_le (h.unmatched_iff.mp hn)]
  blames := h.blames

end Passes
end Call

/-! The checker at work. -/

/-- A checker with nothing under way, whose verdicts so far are right. -/
def idleFrame {σ : Type} (rd : Reading) (World : σ → Prop) (Adm : Ty → Prop) :
    Frame (CheckState σ) where
  Err _ := False
  Inv st := (soundFrame rd World Adm).Inv st ∧ st.memo.pending = []
  Step _ _ := True
  refl _ := trivial
  trans _ _ := trivial

namespace ReadsWithoutInter
variable {σ : Type} {ctx : Surroundings σ} {rd : Reading} {World : σ → Prop} {Adm : Ty → Prop}
  {st : CheckState σ}

theorem gives_check (h : ReadsWithoutInter ctx rd World Adm) (hi : (idleFrame rd World Adm).Inv st)
    {s t : Ty} (hs : Adm s) (ht : Adm t) :
    (idleFrame rd World Adm).Gives (fun d => check ctx d s t) st fun v _ =>
      v = none ↔ rd.Assignable s t := by
  obtain ⟨bound, v, st', hrun, hiff, hi', hp'⟩ := h.check_ends hi.1 hi.2 hs ht
  exact ⟨bound, .ok v, st', hrun, ⟨hi', hp'⟩, trivial, hiff⟩

theorem gives_answers (h : ReadsWithoutInter ctx rd World Adm)
    (hi : (idleFrame rd World Adm).Inv st) {qs : List Question}
    (hq : ∀ q ∈ qs, Adm q.source ∧ Adm q.target) :
    (idleFrame rd World Adm).Gives (fun d => answers ctx d qs) st fun _ _ => True := by
  obtain ⟨bound, st', hrun, hi', hp'⟩ := h.answers_settle st hi.1 hi.2 hq
  exact ⟨bound, .ok _, st', hrun, ⟨hi', hp'⟩, trivial, trivial⟩

theorem gives_matchArguments (h : ReadsWithoutInter ctx rd World Adm)
    (hi : (idleFrame rd World Adm).Inv st) (start : Nat) {ps : List (Param Ty)} {args : List Ty}
    (hp : ∀ p ∈ ps, Adm p.type) (ha : ∀ a ∈ args, Adm a) :
    (idleFrame rd World Adm).Gives (fun d => Call.matchArguments (check ctx d) start ps args) st
      fun o _ => Call.Scanned rd.Assignable args ps start o := by
  induction ps generalizing start args st with
  | nil => exact Frame.gives_pure hi fun i => by simp [Call.FitsAt]
  | cons p ps ih =>
    cases args with
    | nil => exact Frame.gives_pure hi fun i => by simp [Call.FitsAt]
    | cons a args =>
      obtain ⟨hp, hps⟩ := List.forall_mem_cons.mp hp
      obtain ⟨ha, has⟩ := List.forall_mem_cons.mp ha
      refine (h.gives_check hi ha hp).bind fun v st' hi' _ hv => ?_
      cases v with
      | none =>
        refine (ih hi' (start + 1) hps has).imp fun o _ _ _ ho => ?_
        exact ho.cons (hv.mp rfl)
      | some m =>
        have hno : ¬rd.Assignable a p.type := by simpa using mt hv.mpr
        exact Frame.gives_pure hi' ⟨0, p.name, m, rfl, mt Call.fitsAt_zero.mp hno, nofun⟩

end ReadsWithoutInter

namespace Reading
variable {variance : Variance} {a b : Ty}

theorem assignable_array_iff :
    (asIs variance).Assignable (.array a) (.array b) ↔ (asIs variance).Assignable a b := by
  refine ⟨fun h => ?_, fun h => asIs_iff.mpr (.arrays h)⟩
  cases asIs_iff.mp h with
  | equal he =>
    obtain ⟨_, hb, hab⟩ := Ty.same_array_iff.mp he
    cases hb
    exact asIs_iff.mpr (.equal hab)
  | arrays hab => exact hab

end Reading

section
variable {σ : Type} {ctx : Surroundings σ} {st : CheckState σ} {s : Signature Ty} {args : List Ty}
  {ss : List (Signature Ty)}

/-- The parameters have types without intersections and references, and a rest parameter takes an
array. -/
structure Signature.InterRefFree (s : Signature Ty) : Prop where
  params : ∀ p ∈ s.params, p.type.InterRefFree
  rest : ∀ r, s.rest? = some r → ∃ e, r.type = .array e

/-- A type without intersections and references that has no `any` among its members. -/
structure Ty.Definite (t : Ty) : Prop where
  interRefFree : t.InterRefFree
  noAny : ∀ p ∈ t.unionParts, p ≠ Ty.any

namespace Call

/-- A checker between questions about types without intersections and references. -/
abbrev frame (σ : Type) (variance : Variance) : Frame (CheckState σ) :=
  idleFrame (Reading.asIs variance) (fun _ => True) Ty.InterRefFree

variable (hlook : ∀ t : Ty, (∀ n, t ≠ .ref n) → ctx.unwrap t = pure t)
include hlook

/-- One union fits the elements exactly if each trailing argument does. -/
theorem gives_matchTrailing (hi : (frame σ ctx.variance).Inv st) (hs : s.InterRefFree)
    (ha : ∀ a ∈ args, a.Definite) :
    (frame σ ctx.variance).Gives (fun d => matchTrailing (check ctx d) s args) st fun o _ =>
      (o = none ↔ FitsRest (Reading.asIs ctx.variance).Assignable s args) ∧
        ∀ q, o = some q → ∃ p m, q = .trailing s.positional.length p m := by
  unfold matchTrailing
  cases hr : s.rest? with
  | none => exact Frame.gives_pure hi (by simp [FitsRest, hr])
  | some r =>
    obtain ⟨e, he⟩ := hs.rest r hr
    have hrest : r.type.InterRefFree := hs.params r (Signature.mem_params_of_rest hr)
    have htrailing : ∀ a ∈ args.drop s.positional.length, a.Definite := fun a hm =>
      ha a (List.mem_of_mem_drop hm)
    have hjoin := Ty.InterRefFree.join fun a hm => (htrailing a hm).interRefFree
    have hiff : (Reading.asIs ctx.variance).Assignable
        (.array (Ty.join (args.drop s.positional.length))) r.type ↔
          FitsRest (Reading.asIs ctx.variance).Assignable s args := by
      rw [he] at hrest ⊢
      rw [fitsRest_iff hr he, Reading.assignable_array_iff, Reading.assignable_join_iff
        (fun a hm => (htrailing a hm).interRefFree) (fun a hm => (htrailing a hm).noAny)
        (hrest.child (Ty.element_mem_children _))]
    refine ((Reading.readsWithoutInter_asIs rfl hlook).gives_check hi hjoin.array hrest).bind
      fun v st' hi' _ hv => ?_
    cases v with
    | none => exact Frame.gives_pure hi' ⟨by simpa [← hiff] using hv, by simp⟩
    | some m =>
      refine Frame.gives_pure hi' ⟨by simpa [← hiff] using hv, ?_⟩
      rintro _ ⟨rfl⟩
      exact ⟨r.name, m, rfl⟩

theorem gives_blame (hi : (frame σ ctx.variance).Inv st) (hs : s.InterRefFree)
    (ha : ∀ a ∈ args, a.Definite) :
    (frame σ ctx.variance).Gives (fun d => refusal? (check ctx d) s args) st fun o _ =>
      (o = none → Applicable (Reading.asIs ctx.variance).Assignable s args) ∧
        ∀ q i, o = some q → FailsAt (Reading.asIs ctx.variance).Assignable s args
          (Rejection.argument? ⟨i, s, q⟩) := by
  unfold refusal?
  by_cases hc : accepts s args.length
  · have hcount := accepts_iff.mp hc
    simp only [hc, if_true]
    have hscan := (Reading.readsWithoutInter_asIs rfl hlook).gives_matchArguments hi 0
      (fun p hp => hs.params p (Signature.mem_params_of_positional hp)) fun a hm =>
        (ha a hm).interRefFree
    refine hscan.bind fun o st' hi' _ ho => ?_
    cases o with
    | some q =>
      obtain ⟨i, p, m, rfl, hno, hall⟩ := ho
      refine Frame.gives_pure hi' ⟨nofun, ?_⟩
      rintro _ k ⟨rfl⟩
      exact ⟨hcount, .inl (by simpa using ⟨hno, hall⟩)⟩
    | none =>
      refine (gives_matchTrailing hlook hi' hs ha).imp fun o _ _ _ ⟨hnone, hsome⟩ => ?_
      refine ⟨fun h => ⟨hcount, ho, hnone.mp h⟩, fun q k hq => ?_⟩
      obtain ⟨p, m, rfl⟩ := hsome q hq
      exact ⟨hcount, .inr ⟨ho, mt hnone.mpr (by simp [hq]), rfl⟩⟩
  · simp only [hc]
    refine Frame.gives_pure hi ⟨nofun, ?_⟩
    rintro _ k ⟨rfl⟩
    exact mt accepts_iff.mpr hc

theorem gives_passes (hi : (frame σ ctx.variance).Inv st) (start : Nat)
    (hs : ∀ s ∈ ss, s.InterRefFree) (ha : ∀ a ∈ args, a.Definite) :
    (frame σ ctx.variance).Gives (fun d => resolveFrom (check ctx d) args start ss) st
      fun r _ => Passes (Reading.asIs ctx.variance).Assignable args start ss r := by
  induction ss generalizing start st with
  | nil => exact Frame.gives_pure hi ⟨rfl, rfl, nofun, nofun⟩
  | cons s ss ih =>
    obtain ⟨hs, hss⟩ := List.forall_mem_cons.mp hs
    refine (gives_blame hlook hi hs ha).bind fun o st' hi' _ ⟨hnone, hsome⟩ => ?_
    cases o with
    | none =>
      refine Frame.gives_pure hi' ⟨rfl, rfl, ?_, nofun⟩
      rintro _ ⟨rfl⟩
      exact hnone rfl
    | some q =>
      refine (ih hi' (start + 1) hss).bind fun later st'' hi'' _ hl => Frame.gives_pure hi'' ?_
      exact Passes.cons (q := ⟨start, s, q⟩) (hsome q start rfl) rfl hl

end Call
end

/-- How a call is resolved by a checker that was asked some questions before. -/
def freshResolution {σ : Type} (ctx : Surroundings σ) (depth : Nat) (world : σ)
    (before : List Question) (ss : List (Signature Ty)) (args : List Ty) :
    Except Fault Resolution :=
  ((answers ctx depth before >>= fun _ => Call.resolve (check ctx depth) ss args).run.run
    ⟨Memo.empty, world⟩).1

/-- Every call is resolved, whatever was asked before, and by the first signature that is
applicable as far as a fresh checker can tell of each argument. -/
theorem resolve_first_match {σ : Type} {ctx : Surroundings σ}
    (hlook : ∀ t : Ty, (∀ n, t ≠ .ref n) → ctx.unwrap t = pure t) (world : σ)
    {before : List Question} (hb : ∀ q ∈ before, q.source.InterRefFree ∧ q.target.InterRefFree)
    {ss : List (Signature Ty)} {args : List Ty} (hs : ∀ s ∈ ss, s.InterRefFree)
    (ha : ∀ a ∈ args, a.Definite) :
    ∃ fits : Ty → Ty → Bool,
      (∀ a t, a.InterRefFree → t.InterRefFree → ∃ bound, ∀ depth, bound ≤ depth →
        freshAnswers ctx depth world [⟨a, t⟩] = .ok [fits a t]) ∧
      ∃ bound r, (∀ depth, bound ≤ depth →
        freshResolution ctx depth world before ss args = .ok r) ∧
        Call.FirstMatch (fun a t => fits a t = true) args ss r := by
  classical
  have hreads := Reading.readsWithoutInter_asIs rfl hlook
  refine ⟨fun a t => decide ((Reading.asIs ctx.variance).Assignable a t), fun a t hoa hot => ?_, ?_⟩
  · exact hreads.freshAnswers_end trivial [⟨a, t⟩] (by simp [hoa, hot])
  · have hi : (Call.frame σ ctx.variance).Inv ⟨Memo.empty, world⟩ := ⟨⟨trivial, nofun⟩, rfl⟩
    have hgives := (hreads.gives_answers hi hb).bind fun _ _ hi' _ _ =>
      Call.gives_passes hlook hi' 0 hs ha
    obtain ⟨bound, r, st', hrun, hr⟩ := hgives
    cases r with
    | error e => exact hr.elim
    | ok r =>
      refine ⟨bound, r, fun depth hd => ?_, by simpa using hr.2.2.firstMatch⟩
      exact congrArg Prod.fst (hrun depth hd)

/-- Three signatures, of which the first takes fewer arguments and the second another first one.
The third has an optional parameter before the rest, for which there are a union with `never` and a
literal of its own primitive. -/
theorem resolve_first_match_trailing :
    let one : Ty := .literal (.text "one")
    let yes : Ty := .literal (.bool true)
    let rest : Param Ty := ⟨"zs", .array (.union [.prim .boolean, Ty.void]), false, true⟩
    let ss : List (Signature Ty) :=
      [⟨[⟨"x", .prim .string, false, false⟩], Ty.void⟩,
        ⟨[⟨"x", .prim .number, false, false⟩, rest], Ty.void⟩,
        ⟨[⟨"x", .prim .string, false, false⟩, ⟨"y", yes, true, false⟩, rest], Ty.void⟩]
    let args : List Ty := [one, yes, .union [Ty.never, yes], .prim .boolean]
    let before : List Question := [⟨yes, one⟩]
    (∀ s ∈ ss, s.InterRefFree) ∧ (∀ a ∈ args, a.Definite) ∧
      ((freshResolution (Env.surroundings .contravariant true) 10 parity before ss
        args).toOption.bind (·.chosen.map Prod.fst)) = some 2 ∧
      ∃ fits : Ty → Ty → Bool,
        (∀ a t, a.InterRefFree → t.InterRefFree → ∃ bound, ∀ depth, bound ≤ depth →
          freshAnswers (Env.surroundings .contravariant true) depth parity [⟨a, t⟩] =
            .ok [fits a t]) ∧
        ∃ bound r, (∀ depth, bound ≤ depth →
          freshResolution (Env.surroundings .contravariant true) depth parity before ss args =
            .ok r) ∧
          Call.FirstMatch (fun a t => fits a t = true) args ss r := by
  intro one yes rest ss args before
  have hfree : ∀ t ∈ args ++ ss.flatMap (·.params.map (·.type)), t.InterRefFree := by
    have hw : ∀ t ∈ args ++ ss.flatMap (·.params.map (·.type)),
        Ty.holdsWithin Ty.WellShaped 3 t ∧ Ty.holdsWithin Ty.NotInterOrRef 3 t := by decide
    exact fun t ht => Ty.interRefFree_of_holdsWithin (hw t ht)
  have hs : ∀ s ∈ ss, s.InterRefFree := by
    intro s hs
    refine ⟨fun p hp => hfree _ ?_, ?_⟩
    · exact List.mem_append_right _
        (List.mem_flatMap.mpr ⟨s, hs, List.mem_map_of_mem hp⟩)
    · have hrest : ∀ s ∈ ss, s.rest? = none ∨ s.rest? = some rest := by
        simp [ss, Signature.rest?, rest]
      intro r hr
      rcases hrest s hs with hnone | hsome
      · cases hnone.symm.trans hr
      · cases hsome.symm.trans hr
        exact ⟨_, rfl⟩
  have ha : ∀ a ∈ args, a.Definite := fun a ha =>
    ⟨hfree a (List.mem_append_left _ ha), by revert a; simp [args, one, yes, Ty.unionParts]⟩
  have hb : ∀ q ∈ before, q.source.InterRefFree ∧ q.target.InterRefFree := by
    simp [before, hfree one (by simp [args]), hfree yes (by simp [args])]
  exact ⟨hs, ha, by decide +kernel,
    resolve_first_match (fun _ => Env.unwrap_eq_pure) parity hb hs ha⟩

end ShapeCheck
