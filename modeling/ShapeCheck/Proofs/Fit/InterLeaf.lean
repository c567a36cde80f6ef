import ShapeCheck.Proofs.Fit.Fits
import ShapeCheck.Proofs.Ty.Laws

/-! What a type comes down to when its intersections are taken apart. A type that has something
equal for all that another one comes down to fits it, whatever verdicts are on record, as long as
nothing has to be merged for that. -/

namespace ShapeCheck
variable {σ : Type} {ctx : Surroundings σ} {world : σ} {n : ℕ ×ₗ ℕ} {st : CheckState σ}
  {k l m s s' t t' : Ty} {ms ts : List Ty}

namespace Ty

/-- One of the single types that a type comes down to. -/
inductive InterLeaf : Ty → Ty → Prop
  | self {t : Ty} (h : ∀ ms, t ≠ .inter ms) : InterLeaf t t
  | member {ms : List Ty} {m l : Ty} (hm : m ∈ ms) (h : InterLeaf m l) : InterLeaf (.inter ms) l

theorem InterLeaf.eq_self (h : InterLeaf t l) (ht : ∀ ms, t ≠ .inter ms) : l = t := by
  cases h with
  | self => rfl
  | member => exact (ht _ rfl).elim

/-- What holds of the parts of types holds of what they come down to. -/
theorem InterLeaf.part {Part : Ty → Prop} (hchild : ∀ {t u : Ty}, Part t → u ∈ t.children → Part u)
    (h : InterLeaf t l) (ht : Part t) : Part l := by
  induction h with
  | self => exact ht
  | member hm _ ih => exact ih (hchild ht hm)

theorem InterLeaf.proper (h : InterLeaf t l) (ht : t.Proper) : l.Proper :=
  h.part Everywhere.child ht

theorem exists_leaf (h : t.Proper) : ∃ l, InterLeaf t l := by
  induction t using child_induction with
  | step t ih =>
    cases t with
    | inter ms =>
      have hlen := h.here.1
      obtain ⟨m, hm⟩ := List.exists_mem_of_length_pos (l := ms) (by omega)
      obtain ⟨l, hl⟩ := ih m hm (h.child hm)
      exact ⟨l, .member hm hl⟩
    | _ => exact ⟨_, .self (by simp)⟩

theorem InterLeaf.of_same (h : InterLeaf s l) (hs : s.same t) :
    ∃ l', InterLeaf t l' ∧ l.same l' := by
  induction h generalizing t with
  | @self s hne =>
    refine ⟨t, .self ?_, hs⟩
    rintro ms rfl
    cases s with
    | inter ns => exact hne ns rfl
    | _ => simp [same] at hs
  | member hm _ ih =>
    obtain ⟨ns, rfl, -, hin⟩ := same_inter_iff.mp hs
    obtain ⟨n, hn, hmn⟩ := hin _ hm
    obtain ⟨l', hl', hll⟩ := ih hmn
    exact ⟨l', .member hn hl', hll⟩

theorem StandsFor.of_same (h : m.StandsFor l) (hm : k.same m) (hl : l.same t) :
    k.StandsFor t := by
  rcases h with h | ⟨v, rfl, rfl⟩
  · exact .inl (same_trans hm (same_trans h hl))
  · obtain ⟨w, rfl, hwv⟩ := same_literal_right.mp hm
    obtain rfl := same_prim_iff.mp hl
    exact .inr ⟨w, rfl, by rw [Literal.base_eq_of_same hwv]⟩

theorem StandsFor.immediate (h : m.StandsFor t) : Rule.immediate m t = some none := by
  rcases h with h | ⟨l, rfl, rfl⟩
  · simp [Rule.immediate, h]
  · cases l <;> rfl

theorem StandsFor.leaf (h : m.StandsFor t) (hm : m.Proper) (ht : t.Proper) (hl : InterLeaf t l) :
    ∃ k, InterLeaf m k ∧ k.StandsFor l := by
  rcases h with h | ⟨v, rfl, rfl⟩
  · obtain ⟨k, hk, hlk⟩ := hl.of_same (same_symm hm h)
    exact ⟨k, hk, .inl (same_symm (hl.proper ht) hlk)⟩
  · rw [hl.eq_self (by simp)]
    exact ⟨.literal v, .self (by simp), .inr ⟨v, rfl, rfl⟩⟩

/-- What is left of the parts of an intersection comes down to all that they come down to. -/
theorem InterLeaf.exists_remaining (hts : ∀ t ∈ ts, t.Proper) (ht : t ∈ ts) (hl : InterLeaf t l) :
    ∃ m ∈ remaining ts, ∃ k, InterLeaf m k ∧ k.StandsFor l := by
  obtain ⟨p, hp, hpl⟩ : ∃ p ∈ t.interParts, InterLeaf p l := by
    cases hl with
    | self hne => exact ⟨l, by rw [interParts_eq_self hne]; simp, .self hne⟩
    | member hm hl => exact ⟨_, hm, hl⟩
  have hmem : p ∈ ts.flatMap interParts := List.mem_flatMap.mpr ⟨t, ht, hp⟩
  obtain ⟨m, hm, hmp⟩ := Ty.exists_remaining hmem
  have hproper := proper_interParts hts
  have hgiven := (distinct_sublist _).subset ((remaining_sublist ts).subset hm)
  exact ⟨m, hm, hmp.leaf (hproper m hgiven) (hproper p hmem) hpl⟩

/-- There is nothing to choose from or to merge in such a type, if it is single. -/
structure NotUnionObjectOrNever (t : Ty) : Prop where
  not_union : ∀ ms, t ≠ .union ms
  not_object : ¬t.IsObject
  not_never : t ≠ never

theorem NotUnionObjectOrNever.of_same (h : NotUnionObjectOrNever s) (hs : s.same t) :
    NotUnionObjectOrNever t := by
  refine ⟨?_, ?_, ?_⟩
  · rintro ms rfl
    cases s with
    | union ns => exact h.not_union ns rfl
    | _ => simp [same] at hs
  · rintro ⟨fs, i, n, rfl⟩
    cases s with
    | object gs j n' => exact h.not_object ⟨gs, j, n', rfl⟩
    | _ => simp [same] at hs
  · rintro rfl
    exact h.not_never (Inquiry.same_prim_right.mp hs)

/-- The source comes down to something for all that the target comes down to, none of which has to
be merged. -/
def CoversLeaves (s t : Ty) : Prop :=
  ∀ l, InterLeaf t l → l.NotUnionObjectOrNever ∧ ∃ k, InterLeaf s k ∧ k.StandsFor l

namespace CoversLeaves

theorem of_same (h : CoversLeaves s t) (hs : s.Proper) (hss : s'.same s)
    (htt : t'.same t) (hs' : s'.Proper) (ht' : t'.Proper) : CoversLeaves s' t' := by
  intro l' hl'
  obtain ⟨l, hl, hll⟩ := hl'.of_same htt
  obtain ⟨hplain, k, hk, hkl⟩ := h l hl
  obtain ⟨k', hk', hkk⟩ := hk.of_same (same_symm hs' hss)
  have hback := same_symm (hl'.proper ht') hll
  exact ⟨hplain.of_same hback, k', hk', hkl.of_same (same_symm (hk.proper hs) hkk) hback⟩

theorem member (h : CoversLeaves s (.inter ms)) (hm : m ∈ ms) : CoversLeaves s m := fun l hl =>
  h l (.member hm hl)

/-- A target that is none of an intersection is what some member comes down to. -/
theorem exists_member (h : CoversLeaves (.inter ms) t) (ht : ∀ us, t ≠ .inter us) :
    ∃ m ∈ ms, CoversLeaves m t := by
  obtain ⟨hplain, k, hk, hkt⟩ := h t (.self ht)
  cases hk with
  | self hne => exact (hne _ rfl).elim
  | member hm hk =>
    refine ⟨_, hm, fun l hl => ?_⟩
    rw [hl.eq_self ht]
    exact ⟨hplain, k, hk, hkt⟩

theorem not_fromUnion (h : CoversLeaves (.union ms) t) (ht : t.Proper) : False := by
  obtain ⟨l, hl⟩ := exists_leaf ht
  obtain ⟨hplain, k, hk, hkl⟩ := h l hl
  rw [hk.eq_self (by simp)] at hkl
  rcases hkl with hsame | ⟨v, he, _⟩
  · obtain ⟨ns, rfl, -⟩ := same_union_iff.mp hsame
    exact hplain.not_union ns rfl
  · cases he

theorem immediate (h : CoversLeaves s t) (hs : ∀ ms, s ≠ .inter ms) (ht : ∀ ms, t ≠ .inter ms) :
    Rule.immediate s t = some none := by
  obtain ⟨-, k, hk, hkt⟩ := h t (.self ht)
  rw [hk.eq_self hs] at hkt
  exact hkt.immediate

theorem not_refused {m : Mismatch} (h : CoversLeaves s t)
    (himm : Rule.immediate s t = some (some m)) : False := by
  rcases never_or_scalars_of_immediate himm with rfl | ⟨hs, ht⟩
  · exact (h never (.self (by simp))).1.not_never rfl
  · have hnot : ∀ {u : Ty}, Rule.isScalar u → ∀ us, u ≠ .inter us := by
      rintro u hu us rfl
      cases hu
    rw [h.immediate (hnot hs) (hnot ht)] at himm
    cases himm

end CoversLeaves
end Ty

/-- A verdict on record does not deny what is plain to see. -/
structure CoverRecord (e : Question × Verdict) : Prop where
  source : e.1.source.Proper
  target : e.1.target.Proper
  verdict : Ty.CoversLeaves e.1.source e.1.target → e.2 = none

theorem CoverRecord.known {q : Question} {v : Verdict} (hi : st.Above CoverRecord world n)
    (hs : q.source.Proper) (hv : st.memo.verdict? q = some v)
    (h : Ty.CoversLeaves q.source q.target) : v = none := by
  obtain ⟨e, he, rfl, hss, htt⟩ := Memo.exists_of_verdict? hv
  have hr := hi.records e he
  exact hr.verdict (h.of_same hs hss htt hr.source hr.target)

/-- If a member stands for all of a target, it is found among the members. -/
theorem Answered.coversLeaves {φ : Features}
    (h : Answered ctx φ CoverRecord world (Ty.rank s t) (fun _ _ => True)
      fun a b => ¬Ty.CoversLeaves a b)
    (hc : ctx.Level) (hφ : φ.Bare) (hi : st.Above CoverRecord world (Ty.rank s t))
    (hs : Ty.Within φ s) (ht : Ty.Within φ t) (hu : Inquiry.Undecided s t)
    (himm : Rule.immediate s t = none) :
    (descentFrame φ.Err CoverRecord world (Ty.rank s t)).Gives
      (fun d => Rule.structural ctx (check ctx d) d s t) st
      fun v _ => Ty.CoversLeaves s t → v = none := by
  by_cases hsure : Ty.CoversLeaves s t
  · have hsu : ∀ us, s ≠ .union us := by
      rintro us rfl
      exact hsure.not_fromUnion ht.proper
    cases t with
    | inter us =>
      have hall := (h.toInter hi hs ht hsu).sure fun ⟨u, hum, hnot⟩ => hnot (hsure.member hum)
      exact hall.imp fun _ _ _ _ hv _ => hv
    | union us => exact ((hsure _ (.self (by simp))).1.not_union us rfl).elim
    | object gs w x => exact ((hsure _ (.self (by simp))).1.not_object ⟨gs, w, x, rfl⟩).elim
    | _ =>
      cases s with
      | inter ms =>
        obtain ⟨m, hm, hmt⟩ := hsure.exists_member (by simp)
        have hsome := (h.fromSome hi hs ht).sure fun hno => hno m hm hmt
        exact hsome.imp fun _ _ _ _ hv _ => hv
      | _ =>
        rw [hsure.immediate (by simp) (by simp)] at himm
        cases himm
  · exact (h.structural hc hφ hi hs ht hu).imp fun _ _ _ _ _ hyes => (hsure hyes).elim

/-- What comes down to something for all that a target comes down to fits it. -/
theorem gives_coversLeaves {φ : Features} (hc : ctx.Level) (hφ : φ.Bare)
    (hi : st.Above CoverRecord world n) (hs : Ty.Within φ s) (ht : Ty.Within φ t)
    (hr : Ty.rank s t < n) :
    (descentFrame φ.Err CoverRecord world n).Gives (fun d => check ctx d s t) st
      fun v _ => Ty.CoversLeaves s t → v = none := by
  induction hk : Ty.rank s t using WellFoundedLT.induction generalizing n st s t with
  | _ k ih =>
    subst hk
    suffices h : (descentFrame φ.Err CoverRecord world n).Gives
        (fun d => Rule.answer ctx (check ctx d) d s t) st
        fun v _ => Ty.CoversLeaves s t → v = none from
      Settles.succ (fun _ => rfl) h
    simp only [Rule.answer, hc.resolve hφ hs, hc.resolve hφ ht, pure_bind]
    cases himm : Rule.immediate s t with
    | some v =>
      refine Frame.gives_pure hi fun h => ?_
      cases v with
      | none => rfl
      | some m => exact (h.not_refused himm).elim
    | none =>
      have hlower : Answered ctx φ CoverRecord world (Ty.rank s t) (fun _ _ => True)
          fun a b => ¬Ty.CoversLeaves a b :=
        ⟨fun hi' ha hb hab => (ih _ hab hi' ha hb hab rfl).imp fun v _ _ _ hv =>
          ⟨fun _ => trivial, fun hno hyes => hno (hv hyes)⟩⟩
      refine descent_remember (q := ⟨s, t⟩) hi hr (fun v hv => ?_) (fun _ v hv => ?_) ?_
      · exact CoverRecord.known (q := ⟨s, t⟩) hi hs.proper hv
      · exact ⟨hs.proper, ht.proper, hv⟩
      · exact hlower.coversLeaves hc hφ (hi.began (q := ⟨s, t⟩) hs.proper ht.proper hr) hs ht
          (Inquiry.undecided_of_immediate himm) himm

end ShapeCheck
