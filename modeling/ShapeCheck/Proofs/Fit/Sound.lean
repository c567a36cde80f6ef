import ShapeCheck.Fit.Check
import ShapeCheck.Proofs.Fit.Assume
import ShapeCheck.Proofs.Fit.Rules

/-! The check is right about every question, whatever it remembers: a verdict that is kept is true
outright, and a yes that rests on questions under way is true if they are. -/

namespace ShapeCheck

namespace Memo

/-- The questions under way that an answer given now may rest on. -/
def assumed (m : Memo) : List Question :=
  match m.lowest with
  | none => []
  | some d => m.pending.take (m.pending.length - d)

theorem mem_of_depthIn {q : Question} {ps : List Question} {d : Nat} (h : depthIn q ps = some d) :
    ∃ p ∈ ps.take (ps.length - d), p.same q := by
  induction ps with
  | nil => cases h
  | cons p ps ih =>
    unfold depthIn at h
    split at h
    · rename_i hs
      cases h
      exact ⟨p, by simp, hs⟩
    · obtain ⟨p', hp, hs⟩ := ih h
      have hd : d < ps.length := by
        have hl := List.length_pos_of_mem hp
        rw [List.length_take] at hl
        omega
      refine ⟨p', ?_, hs⟩
      rw [List.length_cons, Nat.sub_add_comm (Nat.le_of_lt hd), List.take_succ_cons]
      exact List.mem_cons_of_mem _ hp

theorem assumed_subset {m m' : Memo} (hp : m'.pending = m.pending) (x : Option Nat)
    (hl : m'.lowest = minDepth m.lowest x) : m.assumed ⊆ m'.assumed := by
  unfold assumed
  rw [hp, hl]
  cases m.lowest with
  | none => exact List.nil_subset _
  | some c =>
    cases x with
    | none => exact List.Subset.refl _
    | some d => exact List.take_subset_take_left _ (by omega)

theorem take_subset_assumed {m m' : Memo} (hp : m'.pending = m.pending) (d : Nat)
    (hl : m'.lowest = minDepth m.lowest (some d)) :
    m.pending.take (m.pending.length - d) ⊆ m'.assumed := by
  unfold assumed
  rw [hp, hl]
  cases m.lowest with
  | none => exact List.Subset.refl _
  | some c => exact List.take_subset_take_left _ (by omega)

/-- Inside a question, what an answer rests on is that question and questions further out. -/
theorem assumed_start_subset {q : Question} {before m : Memo}
    (hp : m.pending = q :: before.pending) (hr : reliesOutside before m = false) :
    m.assumed ⊆ [q] := by
  unfold reliesOutside at hr
  unfold assumed
  rw [hp]
  cases hl : m.lowest with
  | none => exact List.nil_subset _
  | some d =>
    simp only [hl, decide_eq_false_iff_not, Nat.not_lt] at hr
    have hk := List.take_subset_take_left (q :: before.pending)
      (show (q :: before.pending).length - d ≤ 1 by simp only [List.length_cons]; omega)
    simpa using hk

theorem assumed_settle {q : Question} {before m : Memo} {keep : Bool} {v : Verdict}
    (hp : m.pending = q :: before.pending) (hr : reliesOutside before m = true) :
    m.assumed ⊆ q :: (settle keep before q v m).assumed := by
  have hr' := hr
  unfold reliesOutside at hr'
  cases hl : m.lowest with
  | none => simp [hl] at hr'
  | some d =>
    simp only [hl, decide_eq_true_eq] at hr'
    have hsub : before.pending.take (before.pending.length - d) ⊆
        (settle keep before q v m).assumed := by
      have hp : (settle keep before q v m).pending = before.pending := rfl
      exact take_subset_assumed hp d (by simp [settle, hr, hl])
    unfold assumed
    simp only [hp, hl, List.length_cons]
    rw [Nat.sub_add_comm (Nat.le_of_lt hr'), List.take_succ_cons]
    exact List.cons_subset_cons q hsub

theorem settle_subset {q : Question} {before m : Memo} {keep : Bool} {v : Verdict} :
    before.assumed ⊆ (settle keep before q v m).assumed := by
  cases hr : reliesOutside before m with
  | true => exact assumed_subset (m := before) rfl m.lowest (by simp [settle, hr])
  | false => 
    refine assumed_subset (m := before) rfl none ?_
    cases h : before.lowest <;> simp [settle, hr, h, minDepth]

theorem assumed_of_nil {m : Memo} (h : m.pending = []) : m.assumed = [] := by
  unfold assumed
  rw [h]
  cases m.lowest <;> simp

/-- Every verdict on record is right. -/
def Sound (rd : Reading) (Adm : Ty → Prop) (m : Memo) : Prop :=
  ∀ e ∈ m.verdicts, Adm e.1.source ∧ Adm e.1.target ∧
    (e.2 = none ↔ rd.Assignable e.1.source e.1.target)

end Memo

/-- Surroundings in which every admissible type is looked up as the reading says, in worlds of some
kind. -/
structure Reading.Governs {σ : Type} (rd : Reading) (ctx : Surroundings σ) (World : σ → Prop)
    (Adm : Ty → Prop) : Prop where
  variance : rd.variance = ctx.variance
  unwrap : ∀ {w : σ} {t : Ty}, World w → Adm t →
    ∃ w', World w' ∧ (ctx.unwrap t).run.run w = (.ok (rd.look t), w')

section
variable {σ : Type} {rd : Reading} {ctx : Surroundings σ} {World : σ → Prop} {Adm : Ty → Prop}
  {st : CheckState σ} {s t : Ty}

/-- Checks keep the memo sound, and answers may come to rest on more questions under way. -/
def soundFrame (rd : Reading) (World : σ → Prop) (Adm : Ty → Prop) : Frame (CheckState σ) where
  Err _ := True
  Inv st := World st.world ∧ st.memo.Sound rd Adm
  Step st st' := st'.memo.pending = st.memo.pending ∧ st.memo.assumed ⊆ st'.memo.assumed
  refl _ := ⟨rfl, List.Subset.refl _⟩
  trans h h' := ⟨h'.1.trans h.1, List.Subset.trans h.2 h'.2⟩

def soundInquiry (hg : rd.Governs ctx World Adm) (hf : rd.Faithful Adm) (ask : Ask σ) :
    Inquiry ctx rd where
  toFrame := soundFrame rd World Adm
  ask _ := ask
  Turns _ := Adm
  Yes st := rd.AssignableUnder st.memo.assumed
  No s t := ¬ rd.Assignable s t
  turns_stable _ _ _ _ h := h
  yes_stable _ _ _ _ hs h := h.weaken hs.2
  child := hf.child
  callable h := by
    rcases h with h | h
    · exact (hf.proper h).here.1
    · exact (hf.proper h).here.1
  variance := hg.variance

theorem gives_resolve (hg : rd.Governs ctx World Adm) (hi : (soundFrame rd World Adm).Inv st)
    (ht : Adm t) : (soundFrame rd World Adm).Gives (fun _ => ctx.resolve t) st fun t' _ =>
      t' = rd.look t := by
  obtain ⟨w', hw, hrun⟩ := hg.unwrap hi.1 ht
  refine Frame.gives_inWorld (fun a w h => ?_) fun e w h => ?_
  · cases hrun.symm.trans h
    exact ⟨⟨hw, hi.2⟩, ⟨rfl, List.Subset.refl _⟩, rfl⟩
  · cases hrun.symm.trans h

theorem gives_elementOf (hg : rd.Governs ctx World Adm) (hi : (soundFrame rd World Adm).Inv st)
    (ht : Adm t) : (soundFrame rd World Adm).Gives (fun _ => Rule.elementOf ctx t) st fun e _ =>
      e = rd.element t := by
  refine (gives_resolve hg hi ht).bind ?_
  rintro _ st' hi' - rfl
  unfold Reading.element
  cases rd.look t <;> exact Frame.gives_pure hi' rfl

theorem Reading.assignableUnder_look (hf : rd.Faithful Adm) {qs : List Question} :
    rd.AssignableUnder qs (rd.look s) (rd.look t) ↔ rd.AssignableUnder qs s t := by
  constructor
  · intro h
    have hu := h.unfold
    rw [hf.look_look, hf.look_look] at hu
    rcases hu with hu | hu
    · exact .assumed hu
    · exact .fold hu
  · intro h
    rcases h.unfold with hu | hu
    · exact .assumed (by rwa [hf.look_look, hf.look_look])
    · exact .fold (by rwa [hf.look_look, hf.look_look])

/-- A question whose types are followed to their end, and which is not decided at once. -/
structure Question.Ready (rd : Reading) (Adm : Ty → Prop) (q : Question) : Prop where
  source : Adm q.source
  target : Adm q.target
  look_source : rd.look q.source = q.source
  look_target : rd.look q.target = q.target

theorem Memo.Sound.known (hf : rd.Faithful Adm) {m : Memo} (hm : m.Sound rd Adm) {q : Question}
    (hq : q.Ready rd Adm) {v : Verdict} (h : m.verdict? q = some v) :
    v = none ↔ rd.Assignable q.source q.target := by
  obtain ⟨e, he, rfl, hss, htt⟩ := Memo.exists_of_verdict? h
  obtain ⟨hs, ht, hv⟩ := hm e he
  have hr := Reading.respects_assignable hf
  rw [hv]
  exact ⟨hr hs hq.source ht hq.target hss htt,
    hr hq.source hs hq.target ht (hf.symm hs hss) (hf.symm ht htt)⟩

theorem Memo.Sound.settle {keep : Bool} {before m : Memo} {q : Question} {v : Verdict}
    (hm : m.Sound rd Adm) (hq : q.Ready rd Adm)
    (hyes : v = none → Memo.reliesOutside before m = false → rd.Assignable q.source q.target)
    (hno : v ≠ none → ¬ rd.Assignable q.source q.target) :
    (Memo.settle keep before q v m).Sound rd Adm := by
  intro e he
  simp only [Memo.settle] at he
  split at he
  · rename_i hk
    rcases List.mem_cons.mp he with rfl | he
    · refine ⟨hq.source, hq.target, fun hv => hyes hv ?_, fun ha => ?_⟩
      · subst hv
        simp only [Option.isSome_none, Bool.false_or, Bool.and_eq_true, Bool.not_eq_true'] at hk
        exact hk.2
      · by_contra hv
        exact hno hv ha
    · exact hm e he
  · exact hm e he

/-- From a verdict on the parts, given while the question is under way, to one on the question. -/
theorem judges_remember (hf : rd.Faithful Adm) {keep : Bool} {q : Question} (hq : q.Ready rd Adm)
    {work : CheckM σ Verdict} (hi : (soundFrame rd World Adm).Inv st)
    (hwork : ∀ st', (soundFrame rd World Adm).Inv st' →
      (soundFrame rd World Adm).Judges (fun _ => work) st'
        (fun st'' => rd.FitsBy (rd.AssignableUnder st''.memo.assumed) q.source q.target)
        (¬ rd.FitsBy rd.Assignable q.source q.target)) :
    (soundFrame rd World Adm).Judges (fun _ => remember keep q work) st
      (fun st' => rd.AssignableUnder st'.memo.assumed q.source q.target)
      (¬ rd.Assignable q.source q.target) := by
  refine settles_remember (fun v hv => ?_) (fun d hd => ?_) fun _ => ?_
  · have hiff := hi.2.known hf hq hv
    refine ⟨hi, ⟨rfl, List.Subset.refl _⟩, fun hn => ?_, fun hn ha => hn (hiff.mpr ha)⟩
    exact (Reading.assignableUnder_nil.mpr (hiff.mp hn)).weaken (List.nil_subset _)
  · obtain ⟨p, hp, hs⟩ := Memo.mem_of_depthIn hd
    simp only [Question.same, Bool.and_eq_true] at hs
    have hpend : (Memo.assume d st.memo).pending = st.memo.pending := rfl
    refine ⟨hi, ⟨rfl, Memo.assumed_subset hpend (some d) rfl⟩, fun _ => ?_,
      fun hn => (hn rfl).elim⟩
    refine .assumed ⟨p, Memo.take_subset_assumed hpend d rfl hp, ?_⟩
    rw [hq.look_source, hq.look_target]
    exact ⟨hs.1.2, hs.2⟩
  · refine Settles.imp (hwork { st with memo := st.memo.start q } ⟨hi.1, hi.2⟩) ?_
    rintro v st' ⟨hi', hs', hyes, hno⟩
    have hno' : v ≠ none → ¬ rd.Assignable q.source q.target := fun hv ha => by
      have hfit := Reading.assignable_iff.mp ha
      rw [hq.look_source, hq.look_target] at hfit
      exact hno hv hfit
    have hunder : v = none → ∀ qs, st'.memo.assumed ⊆ q :: qs →
        rd.AssignableUnder qs q.source q.target := fun hv qs hqs =>
      .discharge hf hq.source hq.target hq.look_source hq.look_target
        ((hyes hv).mono fun a b h => h.weaken hqs)
    have hkept : v = none → Memo.reliesOutside st.memo st'.memo = false →
        rd.Assignable q.source q.target := fun hv hr =>
      Reading.assignableUnder_nil.mp (hunder hv [] (Memo.assumed_start_subset hs'.1 hr))
    refine ⟨⟨hi'.1, hi'.2.settle hq hkept hno'⟩, ⟨rfl, Memo.settle_subset⟩, fun hv => ?_, hno'⟩
    cases hr : Memo.reliesOutside st.memo st'.memo with
    | true => exact hunder hv _ (Memo.assumed_settle hs'.1 hr)
    | false =>
      exact (Reading.assignableUnder_nil.mpr (hkept hv hr)).weaken (List.nil_subset _)

/-- A question is judged rightly: a yes holds under the questions it rests on, and a no holds
outright. -/
def Rightly (rd : Reading) (World : σ → Prop) (Adm : Ty → Prop) (act : CheckM σ Verdict)
    (st : CheckState σ) (s t : Ty) : Prop :=
  (soundFrame rd World Adm).Judges (fun _ => act) st
    (fun st' => rd.AssignableUnder st'.memo.assumed s t) (¬ rd.Assignable s t)

/-- An answer is right if those to the questions it puts are. -/
theorem answer_rightly (hg : rd.Governs ctx World Adm) (hf : rd.Faithful Adm)
    (hni : ∀ {t : Ty}, Adm t → ∀ ms, t ≠ .inter ms) {ask : Ask σ}
    (hask : ∀ {st s t}, (soundFrame rd World Adm).Inv st → Adm s → Adm t →
      Rightly rd World Adm (ask s t) st s t)
    (depth : Nat) (hi : (soundFrame rd World Adm).Inv st) (hs : Adm s) (ht : Adm t) :
    Rightly rd World Adm (Rule.answer ctx ask depth s t) st s t := by
  have hopen : ∀ st, (soundInquiry hg hf ask).Open st := by
    refine fun st => ⟨fun hi' _ ha hb => hask hi' ha hb, fun hi' _ ha => ?_⟩
    refine (gives_elementOf hg hi' ha).imp ?_
    rintro e st'' - - rfl
    exact ⟨hf.element ha, id, id, id, id⟩
  have hls := hf.look hs
  have hlt := hf.look ht
  refine (gives_resolve hg hi hs).bind ?_
  rintro _ st₁ hi₁ - rfl
  refine (gives_resolve hg hi₁ ht).bind ?_
  rintro _ st₂ hi₂ - rfl
  cases himm : Rule.immediate (rd.look s) (rd.look t) with
  | some v =>
    cases v with
    | none => exact Frame.judges_yes hi₂ (.fold (Inquiry.immediate_fits himm))
    | some m =>
      refine Frame.judges_no hi₂ fun ha => ?_
      exact Inquiry.immediate_unfit himm (Reading.assignable_iff.mp ha)
  | none =>
    have hq : Question.Ready rd Adm ⟨rd.look s, rd.look t⟩ :=
      ⟨hls, hlt, hf.look_look s, hf.look_look t⟩
    have hund := Inquiry.undecided_of_immediate himm
    refine (judges_remember hf hq hi₂ fun st' hi' => ?_).imp ?_ ?_
    · refine ((hopen st').structural hi' hls hlt hund (hni hls) (hni hlt)
        fun _ => depth).imp (fun _ => id) fun hn hfit => ?_
      exact hn (hfit.mono fun a b hab => not_not.mpr hab)
    · exact fun st' => (Reading.assignableUnder_look hf).mp
    · rw [← Reading.assignableUnder_nil, ← Reading.assignableUnder_nil,
        Reading.assignableUnder_look hf]
      exact id

/-- Every check is right. -/
theorem check_judges (hg : rd.Governs ctx World Adm) (hf : rd.Faithful Adm)
    (hni : ∀ {t : Ty}, Adm t → ∀ ms, t ≠ .inter ms) (depth : Nat)
    (hi : (soundFrame rd World Adm).Inv st) (hs : Adm s) (ht : Adm t) :
    Rightly rd World Adm (check ctx depth s t) st s t := by
  induction depth generalizing st s t with
  | zero => exact Frame.gives_throw trivial
  | succ depth ih => exact answer_rightly hg hf hni ih depth hi hs ht

/-- With nothing under way a check that comes to an end has decided its question. -/
theorem Rightly.decides {act : CheckM σ Verdict} {v : Verdict} {st' : CheckState σ}
    (hj : Rightly rd World Adm act st s t) (hp : st.memo.pending = [])
    (hrun : act.run.run st = (.ok v, st')) :
    (soundFrame rd World Adm).Inv st' ∧ st'.memo.pending = [] ∧
      (v = none ↔ rd.Assignable s t) := by
  obtain ⟨hi', hstep, hyes, hno⟩ := hj.of_run hrun
  have hp' : st'.memo.pending = [] := hstep.1.trans hp
  refine ⟨hi', hp', fun he => ?_, fun ha => ?_⟩
  · have hunder : rd.AssignableUnder st'.memo.assumed s t := hyes he
    rwa [Memo.assumed_of_nil hp', Reading.assignableUnder_nil] at hunder
  · by_contra he
    exact hno he ha

theorem check_right (hg : rd.Governs ctx World Adm) (hf : rd.Faithful Adm)
    (hni : ∀ {t : Ty}, Adm t → ∀ ms, t ≠ .inter ms) {depth : Nat} {v : Verdict}
    {st' : CheckState σ} (hi : (soundFrame rd World Adm).Inv st) (hp : st.memo.pending = [])
    (hs : Adm s) (ht : Adm t) (hrun : (check ctx depth s t).run.run st = (.ok v, st')) :
    (soundFrame rd World Adm).Inv st' ∧ st'.memo.pending = [] ∧
      (v = none ↔ rd.Assignable s t) :=
  (check_judges hg hf hni depth hi hs ht).decides hp hrun

/-! Properties of types without intersections are read without any question. -/

theorem gives_fieldsOf (hg : rd.Governs ctx World Adm) (hf : rd.Faithful Adm)
    (hni : ∀ {t : Ty}, Adm t → ∀ ms, t ≠ .inter ms) (ask : Ask σ) (depth : Nat)
    (hi : (soundFrame rd World Adm).Inv st) (ht : Adm t) :
    (soundFrame rd World Adm).Gives (fun _ => Member.fieldsOf ctx ask depth t) st
      fun _ _ => True := by
  induction depth generalizing st t with
  | zero => exact Frame.gives_throw trivial
  | succ depth ih =>
    refine (gives_resolve hg hi ht).bind ?_
    rintro _ st₁ hi₁ - rfl
    have hl := hf.look ht
    generalize rd.look t = u at hl
    cases u with
    | union ms =>
      refine (Frame.gives_mapM ms (fun _ _ _ _ _ => id) hi₁ fun m hm st' hi' _ =>
        ih hi' (hf.child hl hm)).bind fun rs st₂ hi₂ _ _ => ?_
      exact Frame.gives_pure hi₂ trivial
    | inter ms => exact (hni hl ms rfl).elim
    | _ => exact Frame.gives_pure hi₁ trivial

theorem gives_indexOf (hg : rd.Governs ctx World Adm) (hf : rd.Faithful Adm)
    (hni : ∀ {t : Ty}, Adm t → ∀ ms, t ≠ .inter ms) (depth : Nat)
    (hi : (soundFrame rd World Adm).Inv st) (ht : Adm t) :
    (soundFrame rd World Adm).Gives (fun _ => Member.indexOf ctx depth t) st fun _ _ => True := by
  cases depth with
  | zero => exact Frame.gives_throw trivial
  | succ depth =>
    refine (gives_resolve hg hi ht).bind ?_
    rintro _ st₁ hi₁ - rfl
    have hl := hf.look ht
    generalize rd.look t = u at hl
    cases u with
    | inter ms => exact (hni hl ms rfl).elim
    | _ => exact Frame.gives_pure hi₁ trivial

theorem gives_propertyType (hg : rd.Governs ctx World Adm) (hf : rd.Faithful Adm)
    (hni : ∀ {t : Ty}, Adm t → ∀ ms, t ≠ .inter ms) (ask : Ask σ) (depth : Nat)
    (hi : (soundFrame rd World Adm).Inv st) (ht : Adm t) (name : String) :
    (soundFrame rd World Adm).Gives (fun _ => Member.propertyType ctx ask depth t name) st
      fun _ _ => True := by
  refine (gives_resolve hg hi ht).bind ?_
  rintro _ st₁ hi₁ - rfl
  split
  · exact Frame.gives_pure hi₁ trivial
  split
  · exact Frame.gives_pure hi₁ trivial
  refine (gives_fieldsOf hg hf hni ask depth hi₁ (hf.look ht)).bind fun r st₂ hi₂ _ _ => ?_
  cases r.bind (Field.find? · name) with
  | some f => exact Frame.gives_pure hi₂ trivial
  | none =>
    exact (gives_indexOf hg hf hni depth hi₂ (hf.look ht)).bind fun i st₃ hi₃ _ _ =>
      Frame.gives_pure hi₃ trivial

end
end ShapeCheck
