import ShapeCheck.Proofs.Fit.Collect

/-! The check of types without references decides assignability, as far as its memo does not take
one question for another. -/

namespace ShapeCheck
variable {σ : Type} {ctx : Surroundings σ} {F : Frame (CheckState σ)} {ask : Nat → Ask σ}
  {Q R : Ty → Ty → Prop} {H k : Nat} {n : ℕ ×ₗ ℕ} {world : σ}
  {st : CheckState σ} {s t : Ty} {ms : List Ty} {fs : List (Field Ty)}

/-- Questions of lower rank are answered by the relation. -/
structure Frame.DecidesBelow (F : Frame (CheckState σ)) (ctx : Surroundings σ) (ask : Nat → Ask σ)
    (Q R : Ty → Ty → Prop) (n : ℕ ×ₗ ℕ) : Prop where
  questions : Ty.SubquestionClosed R Q
  unwrap : ∀ {t : Ty}, (∀ n, t ≠ .ref n) → ctx.unwrap t = pure t
  deep : F.Err .depthExceeded
  judged : ∀ {st : CheckState σ} {a b : Ty}, F.Inv st → Q a b → Ty.rank a b < n →
    F.Judges (fun d => ask d a b) st (fun _ => R a b) (¬R a b)

/-- Gives up on questions of another kind. -/
noncomputable def guarded (Q : Ty → Ty → Prop) (ask : Nat → Ask σ) (d : Nat) : Ask σ :=
  open Classical in fun a b => if Q a b then ask d a b else throw .depthExceeded

namespace Frame.DecidesBelow

/-- What is known of two types that no rule for single types settles. -/
theorem answersBy (h : F.DecidesBelow ctx ask Q R (Ty.rank s t)) :
    F.AnswersBy ctx ask Q R (max s.height t.height) where
  unwrap := h.unwrap
  deep := h.deep
  within := h.questions.within
  judged hi hab ha hb := h.judged hi hab (Ty.rank_lt_of_height ha hb)

theorem inquiry_open (h : F.DecidesBelow ctx ask Q R (Ty.rank s t)) (st : CheckState σ) :
    (F.inquiry ctx (guarded Q ask) .unnamed (max s.height t.height) R
      fun a b => ¬R a b).Open st := by
  refine Frame.inquiry_open h.unwrap ⟨fun _ => rfl⟩ (fun {st' a b} hi ha hb => ?_) st
  by_cases hab : Q a b
  · simpa only [guarded, if_pos hab] using h.answersBy.judged hi hab ha.2 hb.2
  · simp only [guarded, if_neg hab]
    exact Frame.gives_throw h.deep

theorem fromUnion (h : F.DecidesBelow ctx ask Q R (Ty.rank (.union ms) t)) (hi : F.Inv st)
    (hst : Q (.union ms) t) (himm : Rule.immediate (.union ms) t = none) :
    F.Judges (fun d => Rule.structural ctx (ask d) k (.union ms) t) st
      (fun _ => Ty.FitsStep ctx.variance R (.union ms) t)
      (¬Ty.FitsStep ctx.variance R (.union ms) t) := by
  have hund := Inquiry.undecided_of_immediate himm
  refine (Frame.judges_fromUnion (Y := fun m _ => R m t) (N := fun m => ¬R m t)
    (fun _ _ _ _ => id) hi fun m hm st' hi' _ =>
      h.judged hi' (h.questions.leads hst himm (.fromUnion hm)) (Ty.rank_lt_left t rfl hm)).imp
    (fun _ hall => .rule (.fromUnion hund.toNever hall)) ?_
  rintro ⟨m, hm, hno⟩ hfits
  cases hfits with
  | rule hf =>
    cases hf with
    | equal he => exact hund.differ he
    | toAny => exact hund.toAny rfl
    | fromUnion _ hall => exact hno (hall m hm)
    | toUnion hns => exact hns _ rfl
  | toInter hns => exact hns _ rfl

theorem toInter (h : F.DecidesBelow ctx ask Q R (Ty.rank s (.inter ms))) (hi : F.Inv st)
    (hst : Q s (.inter ms)) (himm : Rule.immediate s (.inter ms) = none)
    (hsu : ∀ us, s ≠ .union us) :
    F.Judges (fun d => Rule.structural ctx (ask d) k s (.inter ms)) st
      (fun _ => Ty.FitsStep ctx.variance R s (.inter ms))
      (¬Ty.FitsStep ctx.variance R s (.inter ms)) := by
  have hund := Inquiry.undecided_of_immediate himm
  simp only [Inquiry.structural_toInter hsu]
  refine (Frame.judges_firstMisfit (Y := fun m _ => R s m) (N := fun m => ¬R s m) ms
    (fun _ _ _ _ => id) hi fun m hm st' hi' _ =>
      h.judged hi' (h.questions.leads hst himm (.toInter hsu hm)) (Ty.rank_lt_right s rfl hm)).imp
    (fun _ hall => .toInter hsu hall) ?_
  rintro ⟨m, hm, hno⟩ hfits
  cases hfits with
  | rule hf =>
    cases hf with
    | equal he => exact hund.differ he
    | fromNever => exact hund.fromNever rfl
    | fromAny => exact hund.fromAny rfl
    | fromUnion => exact hsu _ rfl
  | toInter _ hall => exact hno (hall m hm)
  | combined hto =>
    obtain ⟨_, _, _, ho⟩ := hto
    cases ho
  | member hb => cases hb

theorem toUnion (h : F.DecidesBelow ctx ask Q R (Ty.rank s (.union ms))) (hi : F.Inv st)
    (hst : Q s (.union ms)) (himm : Rule.immediate s (.union ms) = none)
    (hsu : ∀ us, s ≠ .union us) :
    F.Judges (fun d => Rule.structural ctx (ask d) k s (.union ms)) st
      (fun _ => Ty.FitsStep ctx.variance R s (.union ms))
      (¬Ty.FitsStep ctx.variance R s (.union ms)) := by
  have hund := Inquiry.undecided_of_immediate himm
  simp only [Inquiry.structural_toUnion hsu]
  refine (Frame.judges_someFits (Y := fun m _ => R s m) (N := fun m => ¬R s m) hi
    fun m hm st' hi' _ =>
      h.judged hi' (h.questions.leads hst himm (.toUnion hsu hm)) (Ty.rank_lt_right s rfl hm)).imp
    ?_ ?_
  · rintro _ ⟨m, hm, hr⟩
    exact .rule (.toUnion hsu hm hr)
  · rintro hno hfits
    cases hfits with
    | rule hf =>
      cases hf with
      | equal he => exact hund.differ he
      | fromNever => exact hund.fromNever rfl
      | fromAny => exact hund.fromAny rfl
      | fromUnion => exact hsu _ rfl
      | toUnion _ hm hr => exact hno _ hm hr
    | combined hto =>
      obtain ⟨_, _, _, ho⟩ := hto
      cases ho
    | member hb => cases hb

theorem fromSome (h : F.DecidesBelow ctx ask Q R (Ty.rank (.inter ms) t)) (hi : F.Inv st)
    (hmember : ∀ m ∈ ms, Q m t) :
    F.Judges (fun d => Rule.fromSome (ask d) (.inter ms) ms t) st (fun _ => ∃ m ∈ ms, R m t)
      (∀ m ∈ ms, ¬R m t) :=
  Frame.judges_someFits hi fun m hm _ hi' _ =>
    h.judged hi' (hmember m hm) (Ty.rank_lt_left t rfl hm)

/-- An intersection is combined for an object, and its members are asked about for anything
else. -/
theorem fromInter (h : F.DecidesBelow ctx ask Q R (Ty.rank (.inter ms) t)) (hi : F.Inv st)
    (hst : Q (.inter ms) t) (himm : Rule.immediate (.inter ms) t = none) (hb : t.isBlend = false)
    (hbuild : ∀ {fs : List (Field Ty)} {i : Option (Index Ty)}, t.IsObject →
      Ty.combinedBy R (.inter ms) = some (.object fs i none) →
      ctx.objectOf fs i = .ok (.object fs i none) ∨ ctx.objectOf fs i = .error .depthExceeded) :
    F.Judges (fun d => Rule.structural ctx (ask d) k (.inter ms) t) st
      (fun _ => Ty.FitsStep ctx.variance R (.inter ms) t)
      (¬Ty.FitsStep ctx.variance R (.inter ms) t) := by
  have hund := Inquiry.undecided_of_immediate himm
  have hs := (h.questions.within hst).1
  have hleads : ∀ {a b : Ty}, Ty.Subquestion R (.inter ms) t a b → Q a b :=
    h.questions.leads hst himm
  have hstep : Ty.FitsStep ctx.variance R (.inter ms) t ↔ _ := Ty.fitsStep_inter_iff hund hb
  by_cases hto : t.IsObject
  · obtain ⟨gs, w, x, rfl⟩ := hto
    have hobject : (Ty.object gs w x).IsObject := ⟨gs, w, x, rfl⟩
    refine (h.answersBy.gives_combinedObject hi hs (le_max_left _ _)
      (fun a b hab => hleads (.merge hobject hab))
      (fun fs j ho hj f hf => hleads (.index hobject ho hj hf)) (hbuild hobject)).bind ?_
    rintro _ st₁ hi₁ - rfl
    cases hc : Ty.combinedBy R (.inter ms) with
    | none =>
      have hmember := fun m hm => hleads (.member (m := m) rfl (fun _ => hc) hm)
      refine (h.fromSome hi₁ hmember).imp (fun _ hsome => ?_) fun hno hfits => ?_
      · exact hstep.mpr (.inr ⟨fun _ => hc, hsome⟩)
      · rcases hstep.mp hfits with ⟨shape, _, hshape, _⟩ | ⟨_, m, hm, hr⟩
        · rw [hc] at hshape
          cases hshape
        · exact hno m hm hr
    | some shape =>
      obtain ⟨fs, i, rfl, -, -, hcombined⟩ := Ty.closed_unnamed.of_combinedBy hs hc
      refine (h.judged hi₁ (hleads (.combined hobject hc)) (hcombined.rank_lt _)).bind ?_ ?_
      · intro st₂ hi₂ _ hr
        exact Frame.judges_yes hi₂ (hstep.mpr (.inl ⟨_, hobject, hc, hr⟩))
      · intro found st₂ hi₂ _ hno
        refine Frame.judges_no hi₂ fun hfits => ?_
        rcases hstep.mp hfits with ⟨shape, _, hshape, hr⟩ | ⟨hnone, _⟩
        · rw [hc] at hshape
          cases hshape
          exact hno hr
        · rw [hc] at hnone
          cases hnone hobject
  · have hrule : ∀ d, Rule.structural ctx (ask d) k (.inter ms) t =
        Rule.fromSome (ask d) (.inter ms) ms t := by
      intro d
      cases t with
      | union us => cases hb
      | inter us => cases hb
      | object gs w x => exact (hto ⟨gs, w, x, rfl⟩).elim
      | _ => rfl
    simp only [hrule]
    have hmember := fun m hm => hleads (.member (m := m) hb (fun ho => (hto ho).elim) hm)
    refine (h.fromSome hi hmember).imp (fun _ hsome => ?_) fun hno hfits => ?_
    · exact hstep.mpr (.inr ⟨fun ho => (hto ho).elim, hsome⟩)
    · rcases hstep.mp hfits with ⟨_, ho, _⟩ | ⟨_, m, hm, hr⟩
      · exact hto ho
      · exact hno m hm hr

theorem plain (h : F.DecidesBelow ctx ask Q R (Ty.rank s t)) (hi : F.Inv st) (hst : Q s t)
    (himm : Rule.immediate s t = none) (hss : Reading.Single s) (hts : Reading.Single t) :
    F.Judges (fun d => Rule.structural ctx (ask d) k s t) st
      (fun _ => Ty.FitsStep ctx.variance R s t) (¬Ty.FitsStep ctx.variance R s t) := by
  obtain ⟨hs, ht⟩ := h.questions.within hst
  simp only [Inquiry.structural_plain hss.1 hts.2 hts.1]
  -- the rule asks about pairs of the kind only, so the guard makes no difference
  have hguard : ∀ d, Rule.plain ctx (ask d) k s t = Rule.plain ctx (guarded Q ask d) k s t :=
    fun d => Rule.plain_congr h.unwrap hs ht hss.2
      (fun a b hab => (if_pos (h.questions.leads hst himm (.pair hab))).symm) k
  simp only [hguard]
  refine ((h.inquiry_open st).plain hi
    (Frame.inquiry_taken hs (Ty.isBlend_of_single hss) (le_max_left _ _))
    (Frame.inquiry_taken ht (Ty.isBlend_of_single hts) (le_max_right _ _))
    (Inquiry.undecided_of_immediate himm) hss.1 hss.2 hts.1
    fun _ => k).imp (fun _ hf => .rule hf) fun hno hfits => ?_
  cases hfits with
  | rule hf => exact hno (hf.mono fun _ _ hr => not_not.mpr hr)
  | toInter => exact hts.2 _ rfl
  | combined => exact hss.2 _ rfl
  | member => exact hss.2 _ rfl

/-- The rules decide whether the types fit. -/
theorem structural (h : F.DecidesBelow ctx ask Q R (Ty.rank s t)) (hi : F.Inv st) (hst : Q s t)
    (himm : Rule.immediate s t = none)
    (hbuild : ∀ {ms : List Ty} {fs : List (Field Ty)} {i : Option (Index Ty)}, s = .inter ms →
      t.IsObject → Ty.combinedBy R s = some (.object fs i none) →
      ctx.objectOf fs i = .ok (.object fs i none) ∨ ctx.objectOf fs i = .error .depthExceeded) :
    F.Judges (fun d => Rule.structural ctx (ask d) k s t) st
      (fun _ => Ty.FitsStep ctx.variance R s t) (¬Ty.FitsStep ctx.variance R s t) := by
  by_cases hsu : ∃ us, s = .union us
  · obtain ⟨us, rfl⟩ := hsu
    exact h.fromUnion hi hst himm
  have hsu : ∀ us, s ≠ .union us := fun us he => hsu ⟨us, he⟩
  by_cases htu : ∃ us, t = .union us
  · obtain ⟨us, rfl⟩ := htu
    exact h.toUnion hi hst himm hsu
  by_cases hti : ∃ us, t = .inter us
  · obtain ⟨us, rfl⟩ := hti
    exact h.toInter hi hst himm hsu
  have hts : Reading.Single t := ⟨fun us he => htu ⟨us, he⟩, fun us he => hti ⟨us, he⟩⟩
  by_cases hsi : ∃ us, s = .inter us
  · obtain ⟨us, rfl⟩ := hsi
    exact h.fromInter hi hst himm (Ty.isBlend_of_single hts) (hbuild rfl)
  · exact h.plain hi hst himm ⟨hsu, fun us he => hsi ⟨us, he⟩⟩ hts

end Frame.DecidesBelow

/-! What is remembered. -/

/-- A verdict on record is that of the relation on a question of the kind, and there is none if none
are kept. -/
structure RecordsBy (keep : Bool) (Q R : Ty → Ty → Prop) (e : Question × Verdict) : Prop where
  keep : keep = true
  asked : Q e.1.source e.1.target
  verdict : e.2 = none ↔ R e.1.source e.1.target

/-- The memo stays right, and nothing goes wrong except that a depth may be exceeded. -/
abbrev exactFrame (keep : Bool) (Q R : Ty → Ty → Prop) (world : σ) (n : ℕ ×ₗ ℕ) :
    Frame (CheckState σ) :=
  descentFrame (· = .depthExceeded) (RecordsBy keep Q R) world n

section
variable {keep : Bool}

theorem known_of_records {q : Question} {v : Verdict} (hQ : Ty.SubquestionClosed R Q)
    (hi : st.Above (RecordsBy keep Q R) world n) (hR : keep = true → Ty.EqualAnswers Q R)
    (hq : Q q.source q.target) (hv : st.memo.verdict? q = some v) :
    v = none ↔ R q.source q.target := by
  obtain ⟨e, he, rfl, hss, htt⟩ := Memo.exists_of_verdict? hv
  have hr := hi.records e he
  obtain ⟨hs, ht⟩ := hQ.within hr.asked
  rw [hr.verdict]
  exact ⟨hR hr.keep hr.asked hq hss htt,
    hR hr.keep hq hr.asked (Ty.same_symm hs.proper hss) (Ty.same_symm ht.proper htt)⟩

/-- A question is answered by the relation, if those it leads to are. -/
theorem judges_answer {ctx : Surroundings σ} (hkeep : ctx.memoize = keep)
    (hR : keep = true → Ty.EqualAnswers Q R) (hstep : R s t ↔ Ty.FitsStep ctx.variance R s t)
    (h : (exactFrame keep Q R world (Ty.rank s t)).DecidesBelow ctx ask Q R (Ty.rank s t))
    (hbuild : ∀ {ms : List Ty} {fs : List (Field Ty)} {i : Option (Index Ty)}, s = .inter ms →
      t.IsObject → Ty.combinedBy R s = some (.object fs i none) →
      ctx.objectOf fs i = .ok (.object fs i none) ∨ ctx.objectOf fs i = .error .depthExceeded)
    (hi : (exactFrame keep Q R world n).Inv st) (hst : Q s t) (hr : Ty.rank s t < n) :
    (exactFrame keep Q R world n).Judges (fun d => Rule.answer ctx (ask d) k s t) st
      (fun _ => R s t) (¬R s t) := by
  obtain ⟨hs, ht⟩ := h.questions.within hst
  simp only [Rule.answer, h.answersBy.resolve hs, h.answersBy.resolve ht, pure_bind]
  cases himm : Rule.immediate s t with
  | some v =>
    cases v with
    | none => exact Frame.judges_yes hi (hstep.mpr (.rule (Inquiry.immediate_fits himm)))
    | some m =>
      exact Frame.judges_no hi fun hst => Ty.not_fitsStep_of_immediate himm (hstep.mp hst)
  | none =>
    dsimp only
    rw [hkeep]
    have hverdict : ∀ v : Verdict, (v = none → R s t) ∧ (v ≠ none → ¬R s t) ↔
        (v = none ↔ R s t) := fun v => by tauto
    refine descent_remember (q := ⟨s, t⟩) hi hr (fun v hv => ?_) (fun hk v hv => ?_) ?_
    · exact (hverdict v).mpr (known_of_records (q := ⟨s, t⟩) h.questions hi hR hst hv)
    · exact ⟨hk, hst, (hverdict v).mp hv⟩
    · have hi' := hi.began (q := ⟨s, t⟩) hs.proper ht.proper hr
      exact (h.structural hi' hst himm hbuild).imp (fun _ => hstep.mpr) (mt hstep.mp)

end

/-- A check of types without references decides assignability, if objects can be built and equal
questions have the same answer as far as verdicts are kept. -/
theorem check_decides {ctx : Surroundings σ} (hc : ctx.Level)
    (hQ : Ty.SubquestionClosed (Ty.Fits ctx.variance) Q)
    (hR : ctx.memoize = true → Ty.EqualAnswers Q (Ty.Fits ctx.variance))
    (hbuild : ∀ {ms : List Ty} {t : Ty} {fs : List (Field Ty)} {i : Option (Index Ty)},
      Q (.inter ms) t → t.IsObject →
      Ty.combinedBy (Ty.Fits ctx.variance) (.inter ms) = some (.object fs i none) →
      Ty.objectOf fs i none = .ok (.object fs i none))
    (hi : (exactFrame ctx.memoize Q (Ty.Fits ctx.variance) world n).Inv st)
    (hst : Q s t) (hr : Ty.rank s t < n) :
    (exactFrame ctx.memoize Q (Ty.Fits ctx.variance) world n).Judges
      (fun d => check ctx d s t) st (fun _ => Ty.Fits ctx.variance s t)
      (¬Ty.Fits ctx.variance s t) := by
  induction hk : Ty.rank s t using WellFoundedLT.induction generalizing n st s t with
  | _ r ih =>
    subst hk
    obtain ⟨hs, ht⟩ := hQ.within hst
    have hlower : (exactFrame ctx.memoize Q (Ty.Fits ctx.variance) world
        (Ty.rank s t)).DecidesBelow ctx (check ctx) Q (Ty.Fits ctx.variance) (Ty.rank s t) :=
      ⟨hQ, hc.unwrap, rfl, fun hi' hab hlt => ih _ hlt hi' hab hlt rfl⟩
    have hanswer : (exactFrame ctx.memoize Q (Ty.Fits ctx.variance) world n).Judges
        (fun d => Rule.answer ctx (check ctx d) s.size s t) st
        (fun _ => Ty.Fits ctx.variance s t) (¬Ty.Fits ctx.variance s t) := by
      refine judges_answer rfl hR (Ty.fits_iff hs ht) hlower ?_ hi hst hr
      rintro ms fs i rfl hto hcombined
      rw [hc.objectOf]
      exact .inl (hbuild hst hto hcombined)
    have hsame : ∀ d, s.size ≤ d → Rule.answer ctx (check ctx d) d s t
        = Rule.answer ctx (check ctx d) s.size s t :=
      fun d hd => Rule.answer_eq_of_size hc ⟨fun _ => rfl⟩ hs ht hd
    exact Settles.succ (fun _ => rfl) (Settles.congr hsame hanswer)

end ShapeCheck
