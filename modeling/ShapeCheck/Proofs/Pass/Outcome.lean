import ShapeCheck.Proofs.Pass.Run

/-! What comes of checking a program. The check of every program comes to an end. A well-formed
program gets its report, except that a property that does not fit an index can stop the check of a
program with intersections and indexes, and there is such a program. -/

namespace ShapeCheck

theorem outcome_of_within {φ : Features} {program : Program} (config : Config)
    (h : program.Within φ) :
    ∃ bound outcome, (∀ depth, bound ≤ depth → checkProgram ⟨config, depth⟩ program = outcome) ∧
      ∀ e, outcome = .error e → φ.Err e := by
  obtain ⟨bound, r, p, hrun, hr⟩ := Pass.settles_run config h
  refine ⟨bound, r, fun depth hd => ?_, ?_⟩
  · rw [checkProgram, hrun depth hd]
  · rintro e rfl
    exact hr

/-- For every program there is a depth that its check never exceeds, and a greater one makes no
difference. -/
theorem checkProgram_terminates (config : Config) (program : Program) :
    ∃ bound outcome, outcome ≠ .error .depthExceeded ∧
      ∀ depth, bound ≤ depth → checkProgram ⟨config, depth⟩ program = outcome := by
  obtain ⟨bound, outcome, hrun, herr⟩ := outcome_of_within config program.within_all
  exact ⟨bound, outcome, fun he => (herr _ he).ne_depthExceeded rfl, hrun⟩

/-- A well-formed program gets a report, or else a property does not fit an index and the program
has both intersections and indexes. -/
theorem checkProgram_returns (config : Config) (program : Program) (h : program.wellFormed) :
    ∃ bound outcome, (∀ depth, bound ≤ depth → checkProgram ⟨config, depth⟩ program = outcome) ∧
      ((∃ report, outcome = .ok report) ∨
        (∃ name t value, outcome = .error (.defect (.indexMisfit name t value))) ∧
          program.hasInter ∧ program.hasIndex) := by
  obtain ⟨bound, outcome, hrun, herr⟩ :=
    outcome_of_within config (Program.within_of_wellFormed h)
  refine ⟨bound, outcome, hrun, ?_⟩
  cases outcome with
  | ok report => exact .inl ⟨report, rfl⟩
  | error e =>
    rcases herr e rfl with ⟨hm, _⟩ | ⟨⟨name, t, value, rfl⟩, hinter, hindex⟩
    · exact hm.elim
    · exact .inr ⟨⟨name, t, value, rfl⟩, hinter, hindex⟩

/-- Shapes that lead back to themselves, one of them through an intersection. -/
def rounds : Program where
  declarations :=
    [.typeAlias "Loop" (.object [⟨"next", .named "Loop" none, false, none⟩] none none) none,
      .typeAlias "Turn" (.object [⟨"next", .inter [.named "Turn" none, .named "Loop" none], false,
        none⟩] none none) none,
      .value "turn" .constBinding (some (.named "Turn" none)) none none,
      .value "loop" .constBinding (some (.named "Loop" none)) (some (.identifier "turn" none)) none]

theorem checkProgram_returns_rounds :
    rounds.wellFormed ∧ ∃ bound report, ∀ depth, bound ≤ depth →
      checkProgram ⟨Config.default, depth⟩ rounds = .ok report := by
  have hw : rounds.wellFormed := by decide
  obtain ⟨bound, outcome, hrun, hout⟩ := checkProgram_returns Config.default rounds hw
  rcases hout with ⟨report, rfl⟩ | ⟨_, _, hindex⟩
  · exact ⟨hw, bound, report, hrun⟩
  · exact absurd hindex (by decide)

namespace Spelled

def one : Value := .number (.double (.finite false 4503599627370496 (-52)))

def oneAndHalf : Value := .number (.double (.finite false 6755399441055744 (-52)))

def shape (ps : List (String × TypeExpr)) (index : Option (IndexSig TypeExpr)) : TypeExpr :=
  .object (ps.map fun p => ⟨p.1, p.2, false, none⟩) index none

/-- The spelling of the number decides which of the members comes first. -/
def pair (number : Value) : TypeExpr :=
  .inter [shape [("a", .literal number none), ("p", .prim .any)] none,
    shape [("a", .literal oneAndHalf none), ("p", .prim .string)] none]

def measured : TypeExpr := shape [("p", .prim .number)] none

def const (name : String) (t : TypeExpr) (init : Option Expr) : Decl :=
  .value name .constBinding (some t) init none

def program : Program where
  declarations :=
    [const "x" (pair one) none,
      const "y" measured (some (.identifier "x" none)),
      const "z" (.inter [shape [("k", pair (.number (.int 1)))] none,
        shape [] (some ⟨.string, measured, none⟩)]) none,
      const "w" (shape [("k", .prim .any)] none) (some (.identifier "z" none))]

/-- The property that stopped a check because it does not fit an index. -/
def misfit? : Except Fault Pass.Report → Option String
  | .error (.defect (.indexMisfit name _ _)) => some name
  | _ => none

/-- Types that differ in the spelling of a number count as the same question, but need not merge
alike. An answer that was kept for one of them lets an index pass for the other, and the object
that is then built refuses it. -/
theorem checkProgram_stops :
    program.wellFormed ∧
      misfit? (checkProgram ⟨Config.default, 20⟩ program) = some "k" ∧
      (checkProgram ⟨{ Config.default with memoize := .bool false }, 20⟩ program).toOption.isSome :=
  ⟨by decide, by decide +kernel⟩

end Spelled
end ShapeCheck
