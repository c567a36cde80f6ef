import ShapeCheck.Proofs.Fit.Finite
import ShapeCheck.Proofs.Fit.Sound

/-! Where references are read in one way and lead to finitely many types, the check decides
assignability of types without intersections. -/

namespace ShapeCheck

/-- Finitely many types that the rules do not lead out of. -/
structure Reading.Closed (rd : Reading) (U : Set Ty) : Prop extends rd.Preserves (· ∈ U) where
  finite : U.Finite

/-- Surroundings whose references are read in one way, and types without intersections in them. -/
structure ReadsWithoutInter {σ : Type} (ctx : Surroundings σ) (rd : Reading) (World : σ → Prop)
    (Adm : Ty → Prop) : Prop where
  governs : rd.Governs ctx World Adm
  faithful : rd.Faithful Adm
  noInter : ∀ {t : Ty}, Adm t → ∀ ms, t ≠ .inter ms
  closed : ∀ s t : Ty, ∃ U, rd.Closed U ∧ s ∈ U ∧ t ∈ U

namespace ReadsWithoutInter
variable {σ : Type} {ctx : Surroundings σ} {rd : Reading} {World : σ → Prop} {Adm : Ty → Prop}
  {st : CheckState σ} {s t : Ty}

/-- The world does not change, and no fault arises. -/
def finiteQuestions (h : ReadsWithoutInter ctx rd World Adm) : FiniteQuestions ctx where
  Err _ := False
  Good := World
  rank _ := 0
  Still _ _ := True
  Fine := Adm
  Enough _ := rd.Closed
  arising := id
  finite hc := hc.finite
  exists_enough {_ s t} _ _ _ := h.closed s t
  any_mem hc := hc.any
  child_mem hc := hc.child
  fine_any := h.faithful.any
  fine_child := h.faithful.child
  fine_callable ht := by
    rcases ht with ht | ht
    · exact (h.faithful.proper ht).here.1
    · exact (h.faithful.proper ht).here.1
  still_refl _ := trivial
  still_trans _ _ := trivial
  still_rank _ := rfl
  still_enough _ := id
  unwrap hw ht hrun := by
    obtain ⟨w', hw', hgov⟩ := h.governs.unwrap hw ht
    cases hgov.symm.trans hrun
    exact ⟨hw', h.faithful.look ht, .inr ⟨trivial, fun U hU => hU.look⟩⟩
  stops hw ht hrun := by
    obtain ⟨w', _, hgov⟩ := h.governs.unwrap hw ht
    cases hgov.symm.trans hrun

theorem combines (h : ReadsWithoutInter ctx rd World Adm) : h.finiteQuestions.Combines :=
  fun _ _ ht => (h.noInter ht.1 _ rfl).elim

/-- A check with nothing under way ends, with a yes exactly if the types are assignable, and
leaves such a state behind. -/
theorem check_ends (h : ReadsWithoutInter ctx rd World Adm) (hi : (soundFrame rd World Adm).Inv st)
    (hp : st.memo.pending = []) (hs : Adm s) (ht : Adm t) :
    ∃ bound v st', (∀ depth, bound ≤ depth → (check ctx depth s t).run.run st = (.ok v, st')) ∧
      (v = none ↔ rd.Assignable s t) ∧ (soundFrame rd World Adm).Inv st' ∧
      st'.memo.pending = [] := by
  obtain ⟨bound, r, st', hrun, hr⟩ := FiniteQuestions.check_settles h.combines hi.1 hs ht
  cases r with
  | error e => exact hr.elim
  | ok v =>
    obtain ⟨hi', hp', hiff⟩ := check_right h.governs h.faithful h.noInter hi hp hs ht
      (hrun bound (Nat.le_refl _))
    exact ⟨bound, v, st', hrun, hiff, hi', hp'⟩

end ReadsWithoutInter
end ShapeCheck
