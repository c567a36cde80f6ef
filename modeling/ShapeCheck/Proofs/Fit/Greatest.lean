import ShapeCheck.Proofs.Env.Plain

/-! In an environment whose names are all settled, the check decides the greatest relation that is
consistent with the rules, whatever was asked before. -/

namespace ShapeCheck
variable {env : Env} {st : CheckState Env} {s t : Ty} {variance : Variance} {memoize : Bool}

/-- The states of a checker that has answered questions about plain types in an environment. -/
inductive Checked (ctx : Surroundings Env) (env : Env) : CheckState Env → Prop
  | fresh : Checked ctx env ⟨Memo.empty, env⟩
  | after {st st' : CheckState Env} {s t : Ty} {depth : Nat} {v : Verdict}
    (h : Checked ctx env st) (hs : env.Plain s) (ht : env.Plain t)
    (hrun : (check ctx depth s t).run.run st = (.ok v, st')) : Checked ctx env st'

theorem Checked.sound (hs : env.Settled) (hv : ∀ t ∈ env.values, t.Proper)
    (h : Checked (Env.surroundings variance memoize) env st) :
    (soundFrame (env.reading variance) (fun env' => env'.cells = env.cells) env.Plain).Inv st ∧
      st.memo.pending = [] := by
  induction h with
  | fresh => exact ⟨⟨rfl, nofun⟩, rfl⟩
  | @after _ _ _ _ depth _ _ hsp htp hrun ih =>
    have hreads := Env.readsWithoutInter hs hv variance memoize
    have hj := check_judges hreads.governs hreads.faithful hreads.noInter depth ih.1 hsp htp
    obtain ⟨hi, hstep, _⟩ := hj.of_run hrun
    exact ⟨hi, hstep.1.trans ih.2⟩

/-- The check decides assignability: from some depth on it gives one verdict, and that is a yes
exactly if the types are related by the greatest relation that is consistent with the rules. -/
theorem check_decides_assignable (hs : env.Settled) (hv : ∀ t ∈ env.values, t.Proper)
    (hst : Checked (Env.surroundings variance memoize) env st) (hsp : env.Plain s)
    (htp : env.Plain t) :
    ∃ bound v st',
      (∀ depth, bound ≤ depth →
        (check (Env.surroundings variance memoize) depth s t).run.run st = (.ok v, st')) ∧
      (v = none ↔ (env.reading variance).Assignable s t) := by
  obtain ⟨hi, hp⟩ := hst.sound hs hv
  obtain ⟨bound, v, st', hrun, hiff, _⟩ :=
    (Env.readsWithoutInter hs hv variance memoize).check_ends hi hp hsp htp
  exact ⟨bound, v, st', hrun, hiff⟩

/-- Two recursive names: streams of numbers, and streams whose items may be texts as well. -/
def streams : Env where
  cells :=
    [⟨"Narrow", none, .settled (.object [⟨"head", .prim .number, false⟩,
        ⟨"tail", .ref "Narrow", false⟩] none (some "Narrow")), false⟩,
      ⟨"Wide", none, .settled (.object [⟨"head", .union [.prim .number, .prim .string], false⟩,
        ⟨"tail", .ref "Wide", false⟩] none (some "Wide")), false⟩]
  resolving := []
  missing := []
  diagnostics := []
  duties := []

theorem streams_proper : ∀ t ∈ streams.values, t.Proper := by
  have h : ∀ t ∈ streams.values, Ty.holdsWithin Ty.WellShaped 3 t := by decide
  exact fun t ht => Ty.everywhere_of_holdsWithin (h t ht)

theorem streams_plain (n : String) : streams.Plain (.ref n) := by
  have h : ∀ t ∈ streams.values, Ty.holdsWithin Ty.NotInter 3 t := by decide
  exact Env.plain_ref (fun t ht => Ty.everywhere_of_holdsWithin (h t ht)) n

/-- Narrow streams against wide ones, after the converse was asked. -/
theorem check_decides_streams :
    let ctx := Env.surroundings .contravariant true
    let st := ((check ctx 10 (.ref "Wide") (.ref "Narrow")).run.run ⟨Memo.empty, streams⟩).2
    streams.Settled ∧ (∀ t ∈ streams.values, t.Proper) ∧ Checked ctx streams st ∧
      streams.Plain (.ref "Narrow") ∧ streams.Plain (.ref "Wide") ∧
      ∃ bound v st',
        (∀ depth, bound ≤ depth →
          (check ctx depth (.ref "Narrow") (.ref "Wide")).run.run st = (.ok v, st')) ∧
        (v = none ↔ (streams.reading .contravariant).Assignable (.ref "Narrow") (.ref "Wide")) := by
  intro ctx st
  have hs : streams.Settled := by decide
  have hnarrow := streams_plain "Narrow"
  have hwide := streams_plain "Wide"
  have hrun : ∃ v, (check ctx 10 (.ref "Wide") (.ref "Narrow")).run.run ⟨Memo.empty, streams⟩ =
      (.ok v, st) := ⟨_, rfl⟩
  have hst : Checked ctx streams st := .after .fresh hwide hnarrow hrun.choose_spec
  exact ⟨hs, streams_proper, hst, hnarrow, hwide,
    check_decides_assignable hs streams_proper hst hnarrow hwide⟩

end ShapeCheck
