import ShapeCheck.Proofs.Fit.CheckDecides

/-! An object that is combined from others can be built: its properties fit the index that it has
kept, and the check that is made when an object is built sees that they do. -/

namespace ShapeCheck
variable {Part : Ty → Prop} {Q R : Ty → Ty → Prop} {variance variance' : Variance} {n : Nat}
  {r : ℕ ×ₗ ℕ} {s t value : Ty} {ms : List Ty} {fs : List (Field Ty)} {i : Option (Index Ty)}
  {st : CheckState Unit}

namespace Ty

theorem mergeClosed_solid : MergeClosed fun t => Within .unnamed t ∧ t.Solid where
  within h := h.1
  any := ⟨within_prim _, .leaf ⟨rfl, trivial⟩ rfl⟩
  never := ⟨within_prim _, .leaf ⟨rfl, trivial⟩ rfl⟩
  child h hu := ⟨h.1.child hu, h.2.child hu⟩
  join h := ⟨within_join fun t ht => (h t ht).1,
    .join ⟨rfl, trivial⟩ (fun _ => ⟨rfl, trivial⟩) fun t ht => (h t ht).2⟩
  meet ha hb _ _ := ⟨within_meet trivial (by simpa using ⟨ha.1, hb.1⟩),
    .meet ⟨rfl, trivial⟩ ⟨rfl, trivial⟩ (fun _ => ⟨rfl, trivial⟩) (by simpa using ⟨ha.2, hb.2⟩)⟩

theorem closed_solid : ComparisonClosed R fun t => Within .unnamed t ∧ t.Solid := by
  refine mergeClosed_solid.closed fun _ h => ⟨?_, ?_⟩
  · exact within_object h.gathered.apart (fun f hf => (h.child (field_mem_children hf)).1)
      fun j hj => ⟨trivial, (h.child (value_mem_children hj)).1⟩
  · exact .mk ⟨rfl, h.gathered.apart⟩ fun u hu => (h.child hu).2

theorem FitsStep.reread (hs : s.isDeferring = false) (h : FitsStep variance R s t) :
    FitsStep variance' R s t := by
  cases h with
  | rule hf => exact .rule (hf.reread hs)
  | toInter hns hall => exact .toInter hns hall
  | combined hto hc hr => exact .combined hto hc hr
  | member hb hn hc hm hr => exact .member hb hn hc hm hr

/-- How parameters compare makes no difference to types without callables. -/
theorem fits_reread (variance variance' : Variance) (hs : Within .unnamed s ∧ s.Solid)
    (ht : Within .unnamed t ∧ t.Solid) : Fits variance s t ↔ Fits variance' s t := by
  induction hk : rank s t using WellFoundedLT.induction generalizing s t with
  | _ r ih =>
    subst hk
    rw [fits_iff hs.1 ht.1, fits_iff hs.1 ht.1,
      FitsStep.congr closed_solid hs ht fun a b ha hb hlt => ih _ hlt ha hb rfl]
    exact ⟨.reread hs.2.here.1, .reread hs.2.here.1⟩

/-- An intersection is never compared with an object at once. -/
theorem immediate_inter_object (ht : t.IsObject) : Rule.immediate (.inter ms) t = none := by
  obtain ⟨gs, w, x, rfl⟩ := ht
  simp [Rule.immediate, same, isAny, isNever, Rule.isScalar]

/-- Types without callables lead to the same questions, however parameters compare. -/
theorem SubquestionClosed.solid (hQ : SubquestionClosed (Fits variance) Q) (variance' : Variance) :
    SubquestionClosed (Fits variance') fun a b => Q a b ∧ a.Solid ∧ b.Solid where
  within h := hQ.within h.1
  leads {s t a b} h himm hl := by
    obtain ⟨hst, hss, hts⟩ := h
    obtain ⟨hs, ht⟩ := hQ.within hst
    obtain ⟨ha, hb⟩ := hl.closed closed_solid ⟨hs, hss⟩ ⟨ht, hts⟩
    exact ⟨hQ.leads hst himm (hl.congr closed_solid (fun _ _ => fits_reread _ _) ⟨hs, hss⟩),
      ha.2, hb.2⟩

end Ty

/-- Checks that decide assignability see that properties fit an index. -/
theorem gives_fitIndex {ask : Ask Unit}
    (hask : ∀ {st : CheckState Unit} {a b : Ty},
      (exactFrame true Q (Ty.Fits variance) () r).Inv st → Q a b → Ty.rank a b < r →
      (exactFrame true Q (Ty.Fits variance) () r).Judges
        (fun _ => ask a b) st (fun _ => Ty.Fits variance a b) (¬Ty.Fits variance a b))
    (hf : ∀ f ∈ fs, Q f.type value ∧ Ty.rank f.type value < r ∧ Ty.Fits variance f.type value)
    (hi : (exactFrame true Q (Ty.Fits variance) () r).Inv st) :
    (exactFrame true Q (Ty.Fits variance) () r).Gives
      (fun _ => fitIndex ask value fs) st fun _ _ => True := by
  induction fs generalizing st with
  | nil => exact Frame.gives_pure hi trivial
  | cons f fs ih =>
    obtain ⟨⟨hfv, hr, hfit⟩, hrest⟩ := List.forall_mem_cons.mp hf
    refine (hask hi hfv hr).bind (fun st' hi' _ _ => ?_) fun m st' _ _ hno => ?_
    · exact ih hrest hi'
    · exact (hno hfit).elim

/-- An object whose properties fit its index can be built, as far as the depth suffices. -/
theorem objectBy_eq {ask : Ask Unit}
    (hask : ∀ {st : CheckState Unit} {a b : Ty},
      (exactFrame true Q (Ty.Fits variance) () r).Inv st → Q a b → Ty.rank a b < r →
      (exactFrame true Q (Ty.Fits variance) () r).Judges
        (fun _ => ask a b) st (fun _ => Ty.Fits variance a b) (¬Ty.Fits variance a b))
    (hapart : Field.Apart fs)
    (hf : ∀ j, i = some j → j.value.defers = false → ∀ f ∈ fs, f.type.defers = false →
      Q f.type j.value ∧ Ty.rank f.type j.value < r ∧ Ty.Fits variance f.type j.value) :
    objectBy ask fs i none = .ok (.object fs i none) ∨
      objectBy ask fs i none = .error .depthExceeded := by
  unfold objectBy
  rw [Field.duplicate?_eq_none.mpr hapart]
  cases i with
  | none => exact .inl rfl
  | some j =>
    by_cases hd : j.value.defers
    · simp [hd]
    have hd : j.value.defers = false := by simpa using hd
    have hgives : (exactFrame true Q (Ty.Fits variance) () r).Gives
        (fun _ => fitIndex ask j.value (fs.filter fun f => !f.type.defers)) ⟨Memo.empty, ()⟩
        fun _ _ => True := by
      refine gives_fitIndex hask (fun f hm => ?_) (fresh_above _ () _)
      obtain ⟨hm, hfd⟩ := List.mem_filter.mp hm
      exact hf j rfl hd f hm (by simpa using hfd)
    obtain ⟨bound, r, st, hrun, hr⟩ := hgives
    have hcheck : checkIndex ask fs j.value = r := by
      rw [checkIndex, hrun bound le_rfl]
    simp only [hd, hcheck]
    cases r with
    | ok u => exact .inl rfl
    | error e => exact .inr (by rw [show e = .depthExceeded from hr]; rfl)

theorem Ty.Combined.rank_index_lt {f : Field Ty} {j : Index Ty} (h : Ty.Combined Part R t fs i)
    (hf : f ∈ fs) (hj : i = some j) : Ty.rank f.type j.value < toLex (t.height, 0) :=
  Prod.Lex.left _ _ (max_lt (h.gathered.type f hf).2 (h.index j hj).1.2)

/-- The check that is made when an object is built decides assignability. -/
theorem judges_closedAsk (hQ : Ty.SubquestionClosed (Ty.Fits .contravariant) Q)
    (hR : Ty.EqualAnswers Q (Ty.Fits .contravariant)) (n : Nat)
    (hi : (exactFrame true Q (Ty.Fits .contravariant) () r).Inv st)
    (hst : Q s t) (hr : Ty.rank s t < r) :
    (exactFrame true Q (Ty.Fits .contravariant) () r).Judges (fun _ => closedAsk n s t) st
      (fun _ => Ty.Fits .contravariant s t) (¬Ty.Fits .contravariant s t) := by
  induction n generalizing r st s t with
  | zero => exact Frame.gives_throw rfl
  | succ n ih =>
    obtain ⟨hs, ht⟩ := hQ.within hst
    have hlower : (exactFrame true Q (Ty.Fits .contravariant) () (Ty.rank s t)).DecidesBelow
        (closedContext n) (fun _ => closedAsk n) Q (Ty.Fits .contravariant) (Ty.rank s t) :=
      ⟨hQ, fun _ => rfl, rfl, ih⟩
    have hkeep : (closedContext n).memoize = true := rfl
    refine judges_answer hkeep (fun _ => hR) (Ty.fits_iff hs ht) hlower
      (fun {ms fs i} he hto hc => ?_) hi hst hr
    subst he
    obtain ⟨_, _, he, ho, hindex, hcombined⟩ := Ty.closed_unnamed.of_combinedBy hs hc
    cases he
    refine objectBy_eq ih hcombined.gathered.apart fun j hj _ f hf _ =>
      ⟨?_, hcombined.rank_index_lt hf hj, (hcombined.index j hj).2 f hf⟩
    exact hQ.leads hst (Ty.immediate_inter_object hto)
      (.index hto ho (Ty.keptIndex_eq_some (hindex ▸ hj)).1 hf)

/-- An object that an intersection is combined into can be built, if equal questions have the same
answer. -/
theorem Ty.SubquestionClosed.objectOf_eq (hQ : Ty.SubquestionClosed (Ty.Fits variance) Q)
    (hR : Ty.EqualAnswers Q (Ty.Fits variance)) (hst : Q (.inter ms) t) (hto : t.IsObject)
    (hc : Ty.combinedBy (Ty.Fits variance) (.inter ms) = some (.object fs i none)) :
    Ty.objectOf fs i none = .ok (.object fs i none) := by
  have hP : Ty.ComparisonClosed (Ty.Fits variance) (Ty.Within .unnamed) := Ty.closed_unnamed
  obtain ⟨_, _, he, ho, hindex, hcombined⟩ := hP.of_combinedBy (hQ.within hst).1 hc
  cases he
  have hsolid : ∀ {u : Ty}, Ty.Within .unnamed u → u.defers = false → u.Solid := fun hu hd =>
    Ty.solid_of_orderly hu.orderly hd
  have hreread : ∀ {a b : Ty}, Q a b ∧ a.Solid ∧ b.Solid →
      (Ty.Fits .contravariant a b ↔ Ty.Fits variance a b) := fun h =>
    Ty.fits_reread _ _ ⟨(hQ.within h.1).1, h.2.1⟩ ⟨(hQ.within h.1).2, h.2.2⟩
  have hR' : Ty.EqualAnswers (fun a b => Q a b ∧ a.Solid ∧ b.Solid)
      (Ty.Fits .contravariant) := by
    intro a a' b b' hab hab' haa hbb h
    exact (hreread hab').mpr (hR hab.1 hab'.1 haa hbb ((hreread hab).mp h))
  have hdepth : Ty.objectOf fs i none = .ok (.object fs i none) ∨
      Ty.objectOf fs i none = .error .depthExceeded := by
    refine objectBy_eq (r := toLex ((Ty.inter ms).height, 0))
      (judges_closedAsk (hQ.solid _) hR' _) hcombined.gathered.apart fun j hj hvd f hf hfd => ?_
    have hasked : Q f.type j.value ∧ f.type.Solid ∧ j.value.Solid :=
      ⟨hQ.leads hst (Ty.immediate_inter_object hto)
        (.index hto ho (Ty.keptIndex_eq_some (hindex ▸ hj)).1 hf),
        hsolid (hcombined.gathered.type f hf).1 hfd, hsolid (hcombined.index j hj).1.1 hvd⟩
    exact ⟨hasked, hcombined.rank_index_lt hf hj,
      (hreread hasked).mpr ((hcombined.index j hj).2 f hf)⟩
  have houtcome := Ty.objectOf_outcome none hcombined.gathered.apart
    (fun f hf => (hcombined.gathered.type f hf).1.orderly)
    fun j hj => (hcombined.index j hj).1.1.orderly
  rcases houtcome with hok | ⟨e, he, ⟨_, _, _, rfl⟩, _⟩
  · exact hok
  · rcases hdepth with hok | herror
    · exact hok
    · rw [herror] at he
      cases he

end ShapeCheck
