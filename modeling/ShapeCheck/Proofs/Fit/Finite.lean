import Mathlib.Data.Set.Card
import ShapeCheck.Fit.Check
import ShapeCheck.Proofs.Fit.Rules

/-! Checks come to an end. As long as the world stays as it is, the questions that arise are about
finitely many types, and none of them is taken up again while it is under way; and the world
changes finitely often. -/

namespace ShapeCheck
variable {σ : Type} {ctx : Surroundings σ}

/-- A kind of world in which finitely many types are enough for the questions that a question
leads to: those that arise from a set of types. `Still` says that nothing has changed that matters
for that, and `rank` bounds how often something still changes. -/
structure FiniteQuestions (ctx : Surroundings σ) where
  Err : Fault → Prop
  Good : σ → Prop
  rank : σ → Nat
  Still : σ → σ → Prop
  Fine : Ty → Prop
  Enough : σ → Set Ty → Prop
  arising : Set Ty → Set Ty
  finite : ∀ {w : σ} {U : Set Ty}, Enough w U → (arising U).Finite
  exists_enough : ∀ {w : σ} {s t : Ty}, Good w → Fine s → Fine t →
    ∃ U, Enough w U ∧ s ∈ arising U ∧ t ∈ arising U
  any_mem : ∀ {w : σ} {U : Set Ty}, Enough w U → Ty.any ∈ arising U
  child_mem : ∀ {w : σ} {U : Set Ty} {t u : Ty}, Enough w U → t ∈ arising U → u ∈ t.children →
    u ∈ arising U
  fine_any : Fine Ty.any
  fine_child : ∀ {t u : Ty}, Fine t → u ∈ t.children → Fine u
  fine_callable : ∀ {ss : List (Signature Ty)} {r : Option Ty},
    Fine (.func ss r) ∨ Fine (.ctor ss) → ss ≠ []
  still_refl : ∀ w, Still w w
  still_trans : ∀ {a b c : σ}, Still a b → Still b c → Still a c
  still_rank : ∀ {w w' : σ}, Still w w' → rank w' = rank w
  still_enough : ∀ {w w' : σ} {U : Set Ty}, Still w w' → Enough w U → Enough w' U
  unwrap : ∀ {w w' : σ} {t t' : Ty}, Good w → Fine t → (ctx.unwrap t).run.run w = (.ok t', w') →
    Good w' ∧ Fine t' ∧ (rank w' < rank w ∨
      Still w w' ∧ ∀ U, Enough w U → t ∈ arising U → t' ∈ arising U)
  stops : ∀ {w w' : σ} {t : Ty} {e : Fault}, Good w → Fine t →
    (ctx.unwrap t).run.run w = (.error e, w') → Err e

namespace FiniteQuestions
variable (T : FiniteQuestions ctx) {U : Set Ty} {n : Nat} {st : CheckState σ} {s t : Ty}

/-- The world has used up one of its changes, or nothing has changed that matters. -/
def Later (w w' : σ) : Prop := T.rank w' < T.rank w ∨ T.Still w w'

variable {T} in
theorem Later.rank_le {w w' : σ} (h : T.Later w w') : T.rank w' ≤ T.rank w := by
  rcases h with h | h
  · exact Nat.le_of_lt h
  · exact Nat.le_of_eq (T.still_rank h)

theorem Later.trans {a b c : σ} (h : T.Later a b) (h' : T.Later b c) : T.Later a c := by
  rcases h with h | h
  · exact .inl (Nat.lt_of_le_of_lt h'.rank_le h)
  · rcases h' with h' | h'
    · exact .inl (Nat.lt_of_lt_of_eq h' (T.still_rank h))
    · exact .inr (T.still_trans h h')

def frame : Frame (CheckState σ) where
  Err := T.Err
  Inv st := T.Good st.world
  Step st st' := st'.memo.pending = st.memo.pending ∧ T.Later st.world st'.world
  refl st := ⟨rfl, .inr (T.still_refl st.world)⟩
  trans h h' := ⟨h'.1.trans h.1, h.2.trans T h'.2⟩

/-- A type that turns up while a question is worked on that began at rank `n` with the types `U`. -/
def Turns (n : Nat) (U : Set Ty) (st : CheckState σ) (t : Ty) : Prop :=
  T.Fine t ∧
    (T.rank st.world < n ∨ T.rank st.world = n ∧ T.Enough st.world U ∧ t ∈ T.arising U)

theorem Turns.later {st st' : CheckState σ} (hs : T.Later st.world st'.world)
    (h : T.Turns n U st t) : T.Turns n U st' t := by
  refine ⟨h.1, ?_⟩
  rcases h.2 with hr | ⟨hr, he, hm⟩
  · exact .inl (Nat.lt_of_le_of_lt hs.rank_le hr)
  · rcases hs with hs | hs
    · exact .inl (hr ▸ hs)
    · exact .inr ⟨(T.still_rank hs).trans hr, T.still_enough hs he, hm⟩

/-- Questions without regard to their answers. -/
def inquiry (n : Nat) (U : Set Ty) : Inquiry ctx ⟨id, ctx.variance⟩ where
  toFrame := T.frame
  ask := check ctx
  Turns := T.Turns n U
  Yes _ _ _ := True
  No _ _ := True
  turns_stable _ _ _ hs h := h.later T hs.2
  yes_stable _ _ _ _ _ h := h
  child h hu := ⟨T.fine_child h.1 hu, h.2.imp_right fun ⟨hr, he, hm⟩ =>
    ⟨hr, he, T.child_mem he hm hu⟩⟩
  callable h := T.fine_callable (h.imp And.left And.left)
  variance := rfl

theorem gives_resolve (hi : T.Good st.world) (ht : T.Turns n U st t) :
    T.frame.Gives (fun _ => ctx.resolve t) st fun t' st' => T.Turns n U st' t' := by
  refine Frame.gives_inWorld (fun t' w' hrun => ?_) fun e w' hrun => T.stops hi ht.1 hrun
  obtain ⟨hg, hf, hr⟩ := T.unwrap hi ht.1 hrun
  have hl : T.Later st.world w' := hr.imp_right And.left
  refine ⟨hg, ⟨rfl, hl⟩, hf, ?_⟩
  rcases ht.2 with hn | ⟨hn, he, hm⟩
  · exact .inl (Nat.lt_of_le_of_lt hl.rank_le hn)
  · rcases hr with hr | ⟨hr, hu⟩
    · exact .inl (hn ▸ hr)
    · exact .inr ⟨(T.still_rank hr).trans hn, T.still_enough hr he, hu U he hm⟩

theorem gives_elementOf (hi : T.Good st.world) (ht : T.Turns n U st t) :
    T.frame.Gives (fun _ => Rule.elementOf ctx t) st fun e st' => T.Turns n U st' e := by
  refine (T.gives_resolve hi ht).bind fun t' st' hi' _ ht' => ?_
  have hany : T.Turns n U st' Ty.any :=
    ⟨T.fine_any, ht'.2.imp_right fun ⟨hr, he, _⟩ => ⟨hr, he, T.any_mem he⟩⟩
  cases t' with
  | array e => exact Frame.gives_pure hi' ((T.inquiry n U).child ht' (Ty.element_mem_children _))
  | _ => exact Frame.gives_pure hi' hany

/-- Once the questions that arise are answered, intersections can be combined, into shapes that
turn up as well. -/
def Combines : Prop :=
  ∀ {n : Nat} {U : Set Ty} {st : CheckState σ} {ms : List Ty}, (T.inquiry n U).Open st →
    T.Good st.world → T.Turns n U st (.inter ms) →
    T.frame.Gives (fun d => Member.combinedObject ctx (check ctx d) d (.inter ms)) st
      fun r st' => ∀ shape, r = some shape → T.Turns n U st' shape

variable {T}

theorem gives_fromSome {ms : List Ty} (ho : (T.inquiry n U).Open st) (hi : T.Good st.world)
    (hs : T.Turns n U st (.inter ms)) (ht : T.Turns n U st t) :
    T.frame.Gives (fun d => Rule.fromSome (check ctx d) s ms t) st fun _ _ => True := by
  refine (Frame.judges_someFits (Y := fun _ _ => True) (N := fun _ => True) hi
    fun m hm st' hi' hs' => ?_).gives
  have hm' := (T.inquiry n U).child hs (u := m) hm
  exact ho.judged hi' hs' (hm'.later T hs'.2) (ht.later T hs'.2)

theorem gives_fromInter (hc : T.Combines) {ms : List Ty} (ho : (T.inquiry n U).Open st)
    (hi : T.Good st.world) (hs : T.Turns n U st (.inter ms)) (ht : T.Turns n U st t) :
    T.frame.Gives (fun d => Rule.fromInter ctx (check ctx d) d (.inter ms) ms t) st
      fun _ _ => True := by
  cases t with
  | object gs wanted name =>
    refine (hc ho hi hs).bind fun r st' hi' hs' hr => ?_
    cases r with
    | none =>
      exact gives_fromSome (ho.later hs') hi' (hs.later T hs'.2) (ht.later T hs'.2)
    | some shape =>
      have hj := (ho.later hs').now hi' (hr shape rfl) (ht.later T hs'.2)
      refine hj.bind (fun st'' hi'' _ _ => Frame.gives_pure hi'' trivial) ?_
      exact fun m st'' hi'' _ _ => Frame.gives_pure hi'' trivial
  | _ => exact gives_fromSome ho hi hs ht

/-- One step of a check, once the questions it leads to are answered. -/
theorem gives_structural (hc : T.Combines) (ho : (T.inquiry n U).Open st) (hi : T.Good st.world)
    (hs : T.Turns n U st s) (ht : T.Turns n U st t) (h : Inquiry.Undecided s t) :
    T.frame.Gives (fun d => Rule.structural ctx (check ctx d) d s t) st fun _ _ => True := by
  by_cases hsu : ∃ ms, s = .union ms
  · obtain ⟨ms, rfl⟩ := hsu
    exact (ho.fromUnion hi hs ht).gives
  have hsu' : ∀ ms, s ≠ .union ms := fun ms he => hsu ⟨ms, he⟩
  by_cases hti : ∃ ms, t = .inter ms
  · obtain ⟨ms, rfl⟩ := hti
    simp only [Inquiry.structural_toInter hsu']
    refine (Frame.judges_firstMisfit ms (Y := fun _ _ => True) (N := fun _ => True)
      (fun _ _ _ _ => id) hi fun m hm st' hi' hs' => ?_).gives
    have hm' := (T.inquiry n U).child ht (u := m) hm
    exact ho.judged hi' hs' (hs.later T hs'.2) (hm'.later T hs'.2)
  have hti' : ∀ ms, t ≠ .inter ms := fun ms he => hti ⟨ms, he⟩
  by_cases hsi : ∃ ms, s = .inter ms
  · obtain ⟨ms, rfl⟩ := hsi
    by_cases htu : ∃ us, t = .union us
    · obtain ⟨us, rfl⟩ := htu
      exact (ho.toSome hi hs ht).gives
    · simp only [Inquiry.structural_plain hsu' hti' fun us he => htu ⟨us, he⟩]
      exact gives_fromInter hc ho hi hs ht
  · exact (ho.structural hi hs ht h (fun ms he => hsi ⟨ms, he⟩) hti' id).gives

end FiniteQuestions

theorem Question.same_self (q : Question) : q.same q := by
  simp [Question.same, Ty.same_refl]

namespace Memo

/-- The pairs of types whose question is not under way. -/
def unasked (U : Set Ty) (pending : List Question) : Set (Ty × Ty) :=
  {p | p.1 ∈ U ∧ p.2 ∈ U ∧ depthIn ⟨p.1, p.2⟩ pending = none}

theorem finite_unasked {U : Set Ty} (h : U.Finite) (pending : List Question) :
    (unasked U pending).Finite :=
  (h.prod h).subset fun _ hp => ⟨hp.1, hp.2.1⟩

/-- A question that begins is one less to ask. -/
theorem unasked_ncard_lt {U : Set Ty} (h : U.Finite) {pending : List Question} {q : Question}
    (hs : q.source ∈ U) (ht : q.target ∈ U) (hq : depthIn q pending = none) :
    (unasked U (q :: pending)).ncard < (unasked U pending).ncard := by
  refine Set.ncard_lt_ncard ((Set.ssubset_iff_of_subset ?_).mpr ?_) (finite_unasked h pending)
  · rintro p ⟨h₁, h₂, hd⟩
    refine ⟨h₁, h₂, ?_⟩
    unfold depthIn at hd
    split at hd
    · cases hd
    · exact hd
  · refine ⟨(q.source, q.target), ⟨hs, ht, hq⟩, ?_⟩
    rintro ⟨_, _, hd⟩
    simp [depthIn, q.same_self] at hd

end Memo

namespace FiniteQuestions
variable {T : FiniteQuestions ctx} {U : Set Ty} {n : Nat} {st : CheckState σ} {s t : Ty}

/-- A check whose questions are answered once it is under way itself. -/
theorem gives_answer (hc : T.Combines) (hi : T.Good st.world) (hs : T.Turns n U st s)
    (ht : T.Turns n U st t)
    (ho : ∀ (q : Question) (st' : CheckState σ), T.Later st.world st'.world →
      T.Turns n U st' q.source → T.Turns n U st' q.target →
      Memo.depthIn q st.memo.pending = none → st'.memo.pending = q :: st.memo.pending →
      (T.inquiry n U).Open st') :
    T.frame.Gives (fun d => Rule.answer ctx (check ctx d) d s t) st fun _ _ => True := by
  refine (T.gives_resolve hi hs).bind fun rs st₁ hi₁ hs₁ hrs => ?_
  refine (T.gives_resolve hi₁ (ht.later T hs₁.2)).bind fun rt st₂ hi₂ hs₂ hrt => ?_
  have hs₁₂ := T.frame.trans hs₁ hs₂
  have hrs₂ := hrs.later T hs₂.2
  cases himm : Rule.immediate rs rt with
  | some v => exact Frame.gives_pure hi₂ trivial
  | none =>
    refine settles_remember (fun v _ => ⟨hi₂, ⟨rfl, .inr (T.still_refl _)⟩, trivial⟩)
      (fun d _ => ⟨hi₂, ⟨rfl, .inr (T.still_refl _)⟩, trivial⟩) fun hd => ?_
    have hpend := congrArg (fun p => (⟨rs, rt⟩ : Question) :: p) hs₁₂.1
    have hopen := ho ⟨rs, rt⟩ { st₂ with memo := st₂.memo.start ⟨rs, rt⟩ } hs₁₂.2 hrs₂ hrt
      (hs₁₂.1 ▸ hd) hpend
    refine Settles.imp (gives_structural hc hopen hi₂ hrs₂ hrt
      (Inquiry.undecided_of_immediate himm)) ?_
    exact fun v st' ⟨hi', hs', _⟩ => ⟨hi', ⟨rfl, hs'.2⟩, trivial⟩

/-- Every check comes to an end. -/
theorem check_settles (hc : T.Combines) (hi : T.Good st.world) (hs : T.Fine s) (ht : T.Fine t) :
    T.frame.Gives (fun d => check ctx d s t) st fun _ _ => True := by
  -- Outside on the changes that the world has left, inside on the questions not yet under way.
  induction hn : T.rank st.world using Nat.strong_induction_on generalizing st s t with
  | _ n ihn =>
    obtain ⟨U, he, hsU, htU⟩ := T.exists_enough hi hs ht
    induction hk : (Memo.unasked (T.arising U) st.memo.pending).ncard using Nat.strong_induction_on
      generalizing st s t with
    | _ k ihk =>
      refine Settles.succ (fun d => rfl) (gives_answer (n := n) (U := U) hc hi
        ⟨hs, .inr ⟨hn, he, hsU⟩⟩ ⟨ht, .inr ⟨hn, he, htU⟩⟩ ?_)
      intro q st₁ hl hqs hqt hq hp
      refine ⟨fun {st' a b} hi' hs' ha hb => ?_, fun hi' _ ha => ?_⟩
      · suffices h : T.frame.Gives (fun d => check ctx d a b) st' fun _ _ => True from
          h.imp fun _ _ _ _ _ => ⟨fun _ => trivial, fun _ => trivial⟩
        rcases ha.2 with hr | ⟨hr, hen, haU⟩
        · exact ihn _ hr hi' ha.1 hb.1 rfl
        · have hr₁ : T.rank st₁.world = n := by
            have := hs'.2.rank_le
            have := hl.rank_le
            omega
          have hmem : ∀ {st t}, T.rank st.world = n → T.Turns n U st t → t ∈ T.arising U := by
            intro st t hr ht
            rcases ht.2 with h | h
            · omega
            · exact h.2.2
          refine ihk _ ?_ hi' ha.1 hb.1 hr hen haU (hmem hr hb) rfl
          rw [← hk, hs'.1, hp]
          exact Memo.unasked_ncard_lt (T.finite he) (hmem hr₁ hqs) (hmem hr₁ hqt) hq
      · exact (T.gives_elementOf hi' ha).imp fun e _ _ _ h => ⟨h, fun _ => trivial,
          fun _ => trivial, fun _ => trivial, fun _ => trivial⟩

end FiniteQuestions
end ShapeCheck
