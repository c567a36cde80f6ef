import ShapeCheck.Proofs.Env.Plain
import ShapeCheck.Proofs.Pass.Run

/-! The state of a pass when it has checked a program. Every name is bound for good, and for types
without intersections the pass answers whether one is assignable to the other. -/

namespace ShapeCheck.Pass
variable {φ : Features} {program : Program} {h : program.Within φ} {config : Config}
  {report : Report} {p : Pass} {n : String} {s t : Ty} {yes : Bool}

/-- What the pass answers when it is asked now whether a type is assignable to another. -/
def Answers (config : Config) (p : Pass) (s t : Ty) (yes : Bool) : Prop :=
  ∃ bound v st, v.isNone = yes ∧ ∀ depth, bound ≤ depth →
    (Setting.ask ⟨config, depth⟩ s t).run.run p.checks = (.ok v, st)

namespace Concludes

/-- The type that is noted for a name. -/
theorem lookup (hc : Concludes h config report p) {c : Cell} {t : Ty} (hm : c ∈ p.env.cells)
    (hp : c.progress = .settled t) : report.aliases.lookup c.name = some t := by
  have hkept := hc.sound.idle.kept
  rw [hc.aliases]
  cases hl : p.aliases.lookup c.name with
  | none =>
    obtain ⟨u, hu⟩ := hc.noted c.name (hkept.known_of_mem hm)
    simpa using List.lookup_eq_none_iff.mp hl _ hu
  | some u =>
    obtain ⟨as, bs, he, -⟩ := List.lookup_eq_some_iff.mp hl
    obtain ⟨b, hb, hn, hbp⟩ := hc.sound.aliases (c.name, u) (by simp [he])
    rw [Env.eq_of_name_eq hkept.apart hb hm hn, hp] at hbp
    cases hbp
    rfl

theorem solved {_ : Lookup} (hc : Concludes h config report p) {c : Cell}
    (hm : c ∈ p.env.cells) :
    ∃ t, c.progress = .settled t ∧ Env.Solved (program.plan h) p.env c t := by
  have hs := hc.settled c hm
  cases hp : c.progress with
  | settled t => exact ⟨t, rfl, (hc.sound.idle.kept.cell c hm).solved hp⟩
  | _ => simp [hp, Progress.isSettled] at hs

theorem cell_of_declares (hc : Concludes h config report p) (hn : program.declares n) :
    ∃ c ∈ p.env.cells, c.name = n := by
  have hdef : p.env.isDefined n := (hc.sound.idle.kept.known n).trans hn
  obtain ⟨c, hf⟩ := Option.isSome_iff_exists.mp hdef
  exact ⟨c, Env.find?_eq_some hf⟩

theorem bound_of_not_declares (hc : Concludes h config report p) (hn : program.declares n = false) :
    p.env.naming.bound n = Ty.any :=
  hc.sound.idle.kept.completes.missing n ((hc.sound.idle.kept.known n).trans hn)

/-- The types that are noted are those that the declared names are bound to. -/
theorem lookup_eq (hc : Concludes h config report p) (n : String) :
    report.aliases.lookup n = if program.declares n then some (p.env.naming.bound n) else none := by
  have hkept := hc.sound.idle.kept
  by_cases hn : program.declares n
  · obtain ⟨c, hm, rfl⟩ := hc.cell_of_declares hn
    obtain ⟨t, hp, -⟩ := hc.solved hm
    rw [if_pos hn, hc.lookup hm hp, hkept.completes.settled c hm t hp]
  · rw [if_neg hn, hc.aliases, List.lookup_eq_none_iff]
    intro a ha
    obtain ⟨c, hm, hname, -⟩ := hc.sound.aliases a ha
    have hdeclared : program.declares a.1 := hname ▸ hkept.known_of_mem hm
    simp only [bne_iff_ne, ne_eq]
    rintro rfl
    exact hn hdeclared

/-- All recipes have run, so that nothing is still to come. -/
theorem tally_eq (hc : Concludes h config report p) (N : Naming) :
    p.env.tally N =
      (p.env.diagnostics.filter (!·.kind.ofLookup)).map .say ++ p.env.duties.map .owe := by
  have hdue : p.env.cells.flatMap (·.due N) = [] := by
    refine List.flatMap_eq_nil_iff.mpr fun c hm => ?_
    obtain ⟨t, hp, -⟩ := hc.solved hm
    simp [Cell.due, hp]
  rw [Env.tally, hdue, List.append_nil]

/-- The recipe of a declaration has come to a result, and unless the name is circular it is what
the name is bound to. -/
theorem result_recipe (hc : Concludes h config report p) {d : Decl}
    (hd : program.declaration? n = some d) :
    ∃ t, (d.recipe.under p.env.naming).result = .ok t ∧
      (p.env.isCircular n = false → p.env.naming.bound n = t) := by
  obtain ⟨c, hm, rfl⟩ := hc.cell_of_declares (Option.isSome_iff_exists.mpr ⟨d, hd⟩)
  have hkept := hc.sound.idle.kept
  obtain ⟨u, hp, hs⟩ := hc.solved hm
  obtain ⟨t, ht, hu⟩ := hs.result _ hkept.completes
  simp only [Program.plan, hd, Option.map_some, Option.getD_some] at ht
  refine ⟨t, ht, fun hcirc => ?_⟩
  rw [Env.isCircular, Env.find?_of_mem hkept.apart hm] at hcirc
  exact (hkept.completes.settled c hm u hp).trans (hu hcirc)

/-- References are followed in one step, since no name is bound to a reference. -/
theorem naming_reading (hc : Concludes h config report p) (variance : Variance) :
    p.env.naming.reading variance = p.env.reading variance := by
  have hlook : ∀ t, p.env.naming.look t = p.env.meaning t := by
    intro t
    rcases t.ref_or_not_ref with ⟨n, rfl⟩ | hn
    · have hfirm := hc.sound.idle.kept.completes.firm n
      exact (Env.chase_of_not_ref hfirm.grounded.not_ref _ _).symm
    · rw [Naming.look_of_not_ref _ hn, Env.meaning_of_not_ref hn]
  exact congrArg (Reading.mk · variance) (funext hlook)

theorem readsWithoutInter (hc : Concludes h config report p) (hni : ¬φ.inter) (variance : Variance)
    (memoize : Bool) :
    ReadsWithoutInter (Env.surroundings variance memoize) (p.env.naming.reading variance)
      (fun env => env.cells = p.env.cells) (Ty.Within φ) where
  governs := hc.naming_reading variance ▸ Env.governs hc.settled variance memoize _
  faithful := hc.sound.idle.kept.completes.faithful variance
  noInter ht := ht.notInter hni
  closed := hc.naming_reading variance ▸ p.env.exists_closed variance

/-- The pass gives an answer, and it is a yes exactly if the types are assignable. -/
theorem answers_iff (hc : Concludes h config report p) (hni : ¬φ.inter) (hs : Ty.Within φ s)
    (ht : Ty.Within φ t) :
    p.Answers config s t yes ↔
      (yes = true ↔ (p.env.naming.reading config.variance).Assignable s t) := by
  have hsound := hc.sound.checker.sound hni _ hc.sound.idle.kept.completes
  have hi : (soundFrame (p.env.naming.reading config.variance)
      (fun env => env.cells = p.env.cells) (Ty.Within φ)).Inv p.checks := ⟨rfl, hsound⟩
  obtain ⟨bound, v, st, hrun, hv, -⟩ :=
    (hc.readsWithoutInter hni config.variance config.memoize.holds).check_ends hi
      hc.sound.checker.pending hs ht
  rw [← hv]
  constructor
  · rintro ⟨bound', v', st', rfl, hrun'⟩
    have hmax := (hrun _ (Nat.le_max_left bound bound')).symm.trans
      (hrun' _ (Nat.le_max_right bound bound'))
    cases hmax
    exact Option.isNone_iff_eq_none
  · intro hyes
    refine ⟨bound, v, st, ?_, hrun⟩
    rw [Bool.eq_iff_iff, hyes, Option.isNone_iff_eq_none]

end Concludes

/-- A program without intersections is checked to the end, if it is formed well with a report. -/
theorem exists_concludes (config : Config) (program : Program) (hni : ¬program.hasInter) :
    ∃ bound outcome p,
      (∀ depth, bound ≤ depth → (run ⟨config, depth⟩ program).run.run empty = (outcome, p)) ∧
      (program.wellFormed → ∃ report, outcome = .ok report) ∧
      ∀ report, outcome = .ok report → Concludes program.within_features config report p := by
  obtain ⟨bound, outcome, p, hrun, hr⟩ := settles_run config program.within_features
  refine ⟨bound, outcome, p, hrun, fun hw => ?_, ?_⟩
  · cases outcome with
    | ok report => exact ⟨report, rfl⟩
    | error e =>
      rcases hr with ⟨hm, -⟩ | ⟨-, hinter, -⟩
      · exact (hm hw).elim
      · exact (hni hinter).elim
  · rintro report rfl
    exact hr

theorem exists_report (config : Config) {program : Program} (hni : ¬program.hasInter)
    (hw : program.wellFormed) :
    ∃ bound report, ∀ depth, bound ≤ depth →
      checkProgram ⟨config, depth⟩ program = .ok report := by
  obtain ⟨bound, outcome, p, hrun, hok, -⟩ := exists_concludes config program hni
  obtain ⟨report, rfl⟩ := hok hw
  refine ⟨bound, report, fun depth hd => ?_⟩
  rw [checkProgram, hrun depth hd]

end ShapeCheck.Pass
