import Mathlib.Logic.Relation
import ShapeCheck.Proofs.Pass.Final

/-! The names that are reported as circular, against the graph of a program: each lies on a cycle,
and every cycle has one. -/

namespace ShapeCheck

/-- No walk leads back to a name that leads nowhere without end. -/
theorem not_isChain_of_acc {Edge : String → String → Prop} {n : String}
    (h : Acc (fun v u => Edge u v) n) (between : List String) :
    ¬List.IsChain Edge (n :: between ++ [n]) := by
  -- The same walk, begun one step later, is one for the name it comes to first.
  induction h generalizing between with
  | intro n _ ih =>
    intro hwalk
    cases between with
    | nil => exact ih n (List.isChain_pair.mp hwalk) [] hwalk
    | cons b rest =>
      obtain ⟨hstep, hwalk⟩ := List.isChain_cons_cons.mp hwalk
      have hwalk : List.IsChain Edge (b :: rest ++ [n]) := hwalk
      refine ih b hstep (rest ++ [n]) ?_
      have hround := List.isChain_split.mpr ⟨hwalk, List.isChain_pair.mpr hstep⟩
      simpa using hround

/-- There is a way round exactly if a walk leads back to where it began. -/
theorem exists_loop_iff {Edge : String → String → Prop} :
    (∃ n between, List.IsChain Edge (n :: between ++ [n])) ↔ ∃ n, Relation.TransGen Edge n n := by
  constructor
  · rintro ⟨n, between, hwalk⟩
    refine ⟨n, ?_⟩
    cases between with
    | nil => exact .single (List.isChain_pair.mp hwalk)
    | cons b rest =>
      obtain ⟨hstep, hwalk⟩ := List.isChain_cons_cons.mp hwalk
      refine Relation.TransGen.head' hstep ?_
      exact List.relationReflTransGen_of_exists_isChain_cons (rest ++ [n]) hwalk (by simp)
  · rintro ⟨n, hn⟩
    obtain ⟨b, hstep, hrest⟩ := Relation.TransGen.head'_iff.mp hn
    obtain ⟨l, hwalk, hlast⟩ := List.exists_isChain_cons_of_relationReflTransGen hrest
    refine ⟨n, (b :: l).dropLast, ?_⟩
    have hsplit : n :: (b :: l).dropLast ++ [n] = n :: b :: l := by
      rw [List.cons_append, ← hlast, List.dropLast_append_getLast]
    rw [hsplit]
    exact List.isChain_cons_cons.mpr ⟨hstep, hwalk⟩

namespace Pass.Concludes
variable {φ : Features} {program : Program} {h : program.Within φ} {config : Config}
  {report : Report} {p : Pass} {n : String}

theorem never_of_isCircular (hc : Concludes h config report p) (hn : p.env.isCircular n) :
    report.aliases.lookup n = some Ty.never := by
  cases hf : p.env.find? n with
  | none => simp [Env.isCircular, hf] at hn
  | some c =>
    obtain ⟨hm, rfl⟩ := Env.find?_eq_some hf
    obtain ⟨t, hp, hs⟩ := hc.solved hm
    rw [hc.lookup hm hp, hs.never (by simpa [Env.isCircular, hf] using hn)]

/-- Every way round passes a circular name. -/
theorem isCircular_of_isChain (hc : Concludes h config report p) {between : List String}
    (hwalk : List.IsChain program.Edge (n :: between ++ [n])) :
    ∃ m ∈ n :: between, p.env.isCircular m := by
  by_contra hnone
  push Not at hnone
  have hon : List.IsChain (fun u v => p.env.Onward (program.plan h) v u)
      (n :: between ++ [n]) := by
    refine hwalk.imp_of_mem_tail_imp fun u v _ hv hedge => ⟨hedge, ?_⟩
    have hmem : v ∈ n :: between := by simpa [or_comm] using hv
    simpa using hnone v hmem
  have hdeclared : program.declares n :=
    (hwalk.rel_getLast_head_of_append (by simp) (List.cons_ne_nil n [])).1
  obtain ⟨c, hm, rfl⟩ := hc.cell_of_declares hdeclared
  obtain ⟨t, -, hs⟩ := hc.solved hm
  exact not_isChain_of_acc hs.ends between hon

end Pass.Concludes

/-- Circular names are found exactly. Each is reported once, with a way round from it along edges
of the graph of the program, and stands for `never`. Every cycle of the graph has a name that is
reported, so none is reported exactly if there is no cycle. -/
theorem checkProgram_finds_cycles (config : Config) (program : Program) :
    ∃ bound outcome, (∀ depth, bound ≤ depth → checkProgram ⟨config, depth⟩ program = outcome) ∧
      (∀ e, outcome = .error e → ¬program.wellFormed ∨ program.hasInter ∧ program.hasIndex) ∧
      ∀ report, outcome = .ok report → ∃ loops : List (Loop program.Edge),
        Diagnostic.ofKind .circularAlias report.diagnostics = loops.map Loop.report ∧
        (∀ l ∈ loops, l.report.notes =
          ["cycle: " ++ " -> ".intercalate (l.name :: l.between ++ [l.name])]) ∧
        (loops.map (·.name)).Nodup ∧
        (∀ l ∈ loops, report.aliases.lookup l.name = some Ty.never) ∧
        (∀ n between, List.IsChain program.Edge (n :: between ++ [n]) →
          ∃ l ∈ loops, l.name ∈ n :: between) ∧
        (Diagnostic.ofKind .circularAlias report.diagnostics = [] ↔
          ∀ n, ¬Relation.TransGen program.Edge n n) := by
  obtain ⟨bound, outcome, p, hrun, hr⟩ := Pass.settles_run config program.within_features
  refine ⟨bound, outcome, fun depth hd => ?_, ?_, ?_⟩
  · rw [checkProgram, hrun depth hd]
  · rintro e rfl
    have herr : program.features.Err e := hr
    exact herr.imp (·.1) (·.2)
  · rintro report rfl
    have hc : Pass.Concludes program.within_features config report p := hr
    obtain ⟨loops, hreports, honce, hexact⟩ := hc.sound.idle.kept.loops
    have hmeets : ∀ n between, List.IsChain program.Edge (n :: between ++ [n]) →
        ∃ l ∈ loops, l.name ∈ n :: between := by
      intro n between hwalk
      obtain ⟨m, hm, hcirc⟩ := hc.isCircular_of_isChain hwalk
      obtain ⟨l, hl, rfl⟩ := List.mem_map.mp ((hexact m).mp hcirc)
      exact ⟨l, hl, hm⟩
    rw [← hc.diagnostics] at hreports
    refine ⟨loops, hreports, fun _ _ => rfl, honce, fun l hl => ?_, hmeets, ?_⟩
    · exact hc.never_of_isCircular ((hexact l.name).mpr (List.mem_map_of_mem hl))
    · rw [hreports, List.map_eq_nil_iff, ← not_exists, ← exists_loop_iff]
      constructor
      · rintro rfl ⟨n, between, hwalk⟩
        obtain ⟨l, hl, -⟩ := hmeets n between hwalk
        cases hl
      · intro hnone
        refine List.eq_nil_iff_forall_not_mem.mpr fun l _ => hnone ⟨l.name, l.between, l.walk⟩

end ShapeCheck
