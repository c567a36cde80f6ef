import ShapeCheck.Proofs.Fit.Greatest
import ShapeCheck.Proofs.Fit.History

/-! A checker that compares parameters both ways accepts all that one which compares them one way
accepts, though the two may settle on different overloads and ask different questions. -/

namespace ShapeCheck

namespace Reading
variable {look : Ty → Ty} {v v' : Variance} {R : Ty → Ty → Prop}

theorem ParamFits.vary (hv : v = .bivariant → v' = .bivariant) {a b : Ty}
    (h : (⟨look, v⟩ : Reading).ParamFits R a b) : (⟨look, v'⟩ : Reading).ParamFits R a b :=
  Or.imp_right (fun hr => ⟨hv hr.1, hr.2⟩) h

theorem SignatureFits.vary (hv : v = .bivariant → v' = .bivariant) {s t : Signature Ty}
    (h : (⟨look, v⟩ : Reading).SignatureFits R s t) :
    (⟨look, v'⟩ : Reading).SignatureFits R s t where
  provided i p a hp ha := (h.provided i p a hp ha).vary hv
  surplus q hq := by
    have hfed := h.surplus q hq
    split at hfed
    · exact hfed.vary hv
    · exact hfed
  rest r own hr ho := (h.rest r own hr ho).vary hv
  result := h.result

theorem SignaturesFit.vary (hv : v = .bivariant → v' = .bivariant) {ss ts : List (Signature Ty)}
    (h : (⟨look, v⟩ : Reading).SignaturesFit R ss ts) :
    (⟨look, v'⟩ : Reading).SignaturesFit R ss ts := by
  intro t ht
  obtain ⟨s, hs, hst⟩ := h t ht
  exact ⟨s, hs, hst.vary hv⟩

/-- Each rule is kept: only those for signatures compare parameters. -/
theorem FitsBy.vary (hv : v = .bivariant → v' = .bivariant) {s t : Ty}
    (h : (⟨look, v⟩ : Reading).FitsBy R s t) : (⟨look, v'⟩ : Reading).FitsBy R s t := by
  cases h with
  | equal he => exact .equal he
  | toAny => exact .toAny s
  | fromNever => exact .fromNever t
  | fromAny hn => exact .fromAny hn
  | undefinedToVoid => exact .undefinedToVoid
  | literalToPrim l => exact .literalToPrim l
  | fromUnion hn hm => exact .fromUnion hn hm
  | toUnion hn hm hr => exact .toUnion hn hm hr
  | arrays hr => exact .arrays hr
  | tupleToArray hr => exact .tupleToArray hr
  | tuples hr => exact .tuples hr
  | objects hf hi => exact .objects hf hi
  | functions hr hs => exact .functions hr (hs.vary hv)
  | constructors hs => exact .constructors (hs.vary hv)

/-- A relation that is consistent when parameters compare one way is so when they compare both
ways, since the types behind references stay what they are. -/
theorem Assignable.vary (hv : v = .bivariant → v' = .bivariant) {s t : Ty}
    (h : (⟨look, v⟩ : Reading).Assignable s t) : (⟨look, v'⟩ : Reading).Assignable s t := by
  obtain ⟨R, hc, hr⟩ := h
  exact ⟨R, fun a b hab => (hc a b hab).vary hv, hr⟩

end Reading

section
variable {env : Env} {st st' : CheckState Env} {s t : Ty} {memoize memoize' : Bool}

/-- Two checkers of one environment, each with its own history and its own way with verdicts, both
come to a verdict, and what is accepted with parameters compared one way is accepted with
parameters compared both ways. -/
theorem bivariance_accepts_more (hs : env.Settled) (hv : ∀ t ∈ env.values, t.Proper)
    (hst : Checked (Env.surroundings .contravariant memoize) env st)
    (hst' : Checked (Env.surroundings .bivariant memoize') env st')
    (hsp : env.Plain s) (htp : env.Plain t) :
    ∃ bound strict loose after after',
      (∀ depth, bound ≤ depth →
        (check (Env.surroundings .contravariant memoize) depth s t).run.run st =
            (.ok strict, after) ∧
          (check (Env.surroundings .bivariant memoize') depth s t).run.run st' =
            (.ok loose, after')) ∧
      (strict = none → loose = none) := by
  obtain ⟨hi, hp⟩ := hst.sound hs hv
  obtain ⟨hi', hp'⟩ := hst'.sound hs hv
  obtain ⟨b, strict, after, hrun, hstrict, -⟩ :=
    (Env.readsWithoutInter hs hv .contravariant memoize).check_ends hi hp hsp htp
  obtain ⟨b', loose, after', hrun', hloose, -⟩ :=
    (Env.readsWithoutInter hs hv .bivariant memoize').check_ends hi' hp' hsp htp
  refine ⟨max b b', strict, loose, after, after', fun depth hd => ?_, fun h => ?_⟩
  · exact ⟨hrun depth (by omega), hrun' depth (by omega)⟩
  · exact hloose.mpr ((hstrict.mp h).vary fun _ => rfl)

end

/-- Functions over recursive names, which both checkers accept after they were asked about the
names; other functions are accepted by one of them only. -/
theorem bivariance_accepts_more_streams :
    let strictly := Env.surroundings .contravariant true
    let loosely := Env.surroundings .bivariant false
    let s : Ty := .func [⟨[⟨"x", .ref "Wide", false, false⟩], .ref "Narrow"⟩] none
    let t : Ty := .func [⟨[⟨"x", .ref "Narrow", false, false⟩], .ref "Wide"⟩] none
    let near : Ty := .func [⟨[⟨"x", .ref "Narrow", false, false⟩], .ref "Narrow"⟩] none
    let far : Ty := .func [⟨[⟨"x", .ref "Wide", false, false⟩], .ref "Wide"⟩] none
    let st := ((check strictly 10 (.ref "Wide") (.ref "Narrow")).run.run ⟨Memo.empty, streams⟩).2
    let st' := ((check loosely 10 (.ref "Wide") (.ref "Narrow")).run.run ⟨Memo.empty, streams⟩).2
    streams.Settled ∧ (∀ t ∈ streams.values, t.Proper) ∧ Checked strictly streams st ∧
      Checked loosely streams st' ∧ streams.Plain s ∧ streams.Plain t ∧
      (freshAnswers strictly 10 streams [⟨near, far⟩, ⟨s, t⟩]).toOption = some [false, true] ∧
      (freshAnswers loosely 10 streams [⟨near, far⟩, ⟨s, t⟩]).toOption = some [true, true] ∧
      ∃ bound strict loose after after',
        (∀ depth, bound ≤ depth →
          (check strictly depth s t).run.run st = (.ok strict, after) ∧
            (check loosely depth s t).run.run st' = (.ok loose, after')) ∧
        (strict = none → loose = none) := by
  intro strictly loosely s t near far st st'
  have hs : streams.Settled := by decide
  have hplain : ∀ u ∈ [s, t], streams.Plain u := by
    have hw : ∀ u ∈ [s, t],
        Ty.holdsWithin Ty.WellShaped 2 u ∧ Ty.holdsWithin Ty.NotInter 2 u := by decide
    have hn : ∀ u ∈ streams.values, Ty.holdsWithin Ty.NotInter 3 u := by decide
    exact fun u hu => ⟨Ty.everywhere_of_holdsWithin (hw u hu).1,
      Env.interFree_of_everywhere (fun u hu => Ty.everywhere_of_holdsWithin (hn u hu))
        (Ty.everywhere_of_holdsWithin (hw u hu).2)⟩
  have hwide := streams_plain "Wide"
  have hnarrow := streams_plain "Narrow"
  have hrun : ∃ v, (check strictly 10 (.ref "Wide") (.ref "Narrow")).run.run
      ⟨Memo.empty, streams⟩ = (.ok v, st) := ⟨_, rfl⟩
  have hrun' : ∃ v, (check loosely 10 (.ref "Wide") (.ref "Narrow")).run.run
      ⟨Memo.empty, streams⟩ = (.ok v, st') := ⟨_, rfl⟩
  have hst : Checked strictly streams st := .after .fresh hwide hnarrow hrun.choose_spec
  have hst' : Checked loosely streams st' := .after .fresh hwide hnarrow hrun'.choose_spec
  have hsp := hplain s (by simp)
  have htp := hplain t (by simp)
  exact ⟨hs, streams_proper, hst, hst', hsp, htp, by decide +kernel, by decide +kernel,
    bivariance_accepts_more hs streams_proper hst hst' hsp htp⟩

end ShapeCheck
