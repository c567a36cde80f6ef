import ShapeCheck.Proofs.Env.Blind
import ShapeCheck.Proofs.Pass.Final
import ShapeCheck.Proofs.Pass.Link

/-! A statement leaves the rest of a program alone. When the names have their types, all that its
expression leaves behind is what it reports and the types of its own nodes, and what comes after it
goes the way it would have gone without it. -/

namespace ShapeCheck
namespace Pass
variable {φ : Features} {plan : Plan φ} {config : Config} {s : Setting} {p p' p'' : Pass}
  {e : Expr} {front back : List Decl}

/-! What an expression leaves alone. -/

/-- No value is bound and no alias noted, and nodes only come to have types. -/
structure OnlyAddsNodes (p p' : Pass) : Prop where
  scope : p'.scope = p.scope
  aliases : p'.aliases = p.aliases
  nodes : p.nodes <+: p'.nodes

theorem OnlyAddsNodes.refl (p : Pass) : OnlyAddsNodes p p := ⟨rfl, rfl, List.prefix_refl _⟩

theorem OnlyAddsNodes.trans (h : OnlyAddsNodes p p') (h' : OnlyAddsNodes p' p'') :
    OnlyAddsNodes p p'' :=
  ⟨h'.scope.trans h.scope, h'.aliases.trans h.aliases, h.nodes.trans h'.nodes⟩

/-- Expressions keep what was there before, whatever their checks come to. -/
def keeping (s : Setting) : Pairing inferInstance inferInstance s where
  checks :=
    { Reflects := fun _ _ => True
      result := fun _ => trivial
      fault := fun _ => trivial
      seq := fun _ _ => trivial
      resolve := fun _ => trivial
      remember := fun _ _ _ _ => trivial
      variance := rfl
      objectOf := rfl }
  Matches act _ := ∀ ⦃p r p'⦄, act.run.run p = (r, p') → OnlyAddsNodes p p'
  result _ p _ _ hrun := by
    cases hrun
    exact .refl p
  fault _ p _ _ hrun := by
    cases hrun
    exact .refl p
  seq h hf p r p' hrun := by
    rw [run_bind] at hrun
    split at hrun
    · exact (h ‹_›).trans (hf _ hrun)
    · cases hrun
      exact h ‹_›
  reading h p _ _ hrun := h p p ⟨rfl, rfl, rfl⟩ hrun
  checking _ p _ _ hrun := by
    cases hrun
    exact ⟨rfl, rfl, List.prefix_refl _⟩
  report _ p _ _ hrun := by
    cases hrun
    exact ⟨rfl, rfl, List.prefix_refl _⟩
  record _ _ p _ _ hrun := by
    cases hrun
    exact ⟨rfl, rfl, List.prefix_append _ _⟩

theorem onlyAddsNodes_infer {r : Except Fault Typed} (h : (infer s e).run.run p = (r, p')) :
    OnlyAddsNodes p p' :=
  Pairing.matches_infer (P := keeping s) e h

/-! What comes after it. -/

/-- A pass beside one that has reported more at a certain point and has met more nodes there. What
that one has on record does not count, since no verdicts are kept. -/
def beside (hm : s.config.memoize.holds = false) (p : Pass) (block : List Diagnostic)
    (own : List (NodeKind × Ty)) : Link inferInstance inferInstance s where
  Lost _ := False
  exact := False
  World := Env.Interjects p.diagnostics block
  Nodes := Spliced p.nodes own
  memoize hk := Bool.false_ne_true (hm.symm.trans hk)
  unwrap t := Env.blind_unwrap t p.diagnostics block
  resolve name span := Env.blind_resolve name span p.diagnostics block
  follow recipe := Env.blind_follow recipe p.diagnostics block
  report d h := h.report d
  duties h := h.duties
  names h := congrArg List.length h.cells
  record n h := h.push n

theorem settles_infer_beside (hm : config.memoize.holds = false) (hp : p.Sound plan config)
    (hs : p.env.Settled) (he : ∀ u ∈ e.parts, u.isMisplaced → φ.malformed) :
    Settles φ.Err (fun d => infer ⟨config, d⟩ e) p fun _ p' =>
      ∃ block own, p'.diagnostics = p.diagnostics ++ block ∧ p'.nodes = p.nodes ++ own ∧
        ∀ depth node, (beside (s := ⟨config, depth⟩) hm p block (own ++ [node])).Joins p
          { p' with nodes := p'.nodes ++ [node] } := by
  obtain ⟨bound, r, p', hrun, hr⟩ := gives_handled hs (gives_infer config e he hp)
  refine ⟨bound, r, p', hrun, ?_⟩
  cases r with
  | error f => exact hr
  | ok typed =>
    obtain ⟨hp', -, -, hadds, hstill⟩ := hr
    have hkeeps := onlyAddsNodes_infer (hrun bound le_rfl)
    obtain ⟨block, hblock⟩ := hadds.grows.diagnostics
    obtain ⟨own, hown⟩ := hkeeps.nodes
    refine ⟨block, own, hblock.symm, hown.symm, fun depth node => ⟨⟨?_, ?_, False.elim⟩,
      hkeeps.scope, hkeeps.aliases, ?_⟩⟩
    -- No cell is left to fill and no recipe runs, so only what was reported can be new.
    · have hspliced := hblock ▸ spliced_self p.diagnostics block
      exact ⟨hstill.cells, hp'.idle.resting.trans hp.idle.resting.symm, hstill.missing,
        hstill.duties, hspliced⟩
    · exact hp'.checker.pending.trans hp.checker.pending.symm
    · have hnodes : p'.nodes ++ [node] = p.nodes ++ (own ++ [node]) := by
        rw [← hown, List.append_assoc]
      exact hnodes ▸ spliced_self p.nodes (own ++ [node])

/-! Passes in two parts. -/

/-- The pass over declarations up to the end of some of them. -/
def upTo (s : Setting) (ds front : List Decl) : PassM Unit := do
  registerTypes ds
  hoistFunctions ds
  declareAll s front

/-- The pass over the other ones, and the checks left for later. -/
def onward (s : Setting) (back : List Decl) : PassM Unit := do
  declareAll s back
  discharge s

def conclude : PassM Report := do
  let p ← get
  pure ⟨p.diagnostics, p.scope.sorted, p.aliases, p.nodes⟩

theorem declareAll_append (s : Setting) (front back : List Decl) :
    declareAll s (front ++ back) = (do declareAll s front; declareAll s back) := by
  induction front with
  | nil => rfl
  | cons d front ih => simp only [List.cons_append, declareAll, ih, bind_assoc]

theorem run_append (s : Setting) (front back : List Decl) :
    run s ⟨front ++ back⟩ = (do upTo s (front ++ back) front; onward s back; conclude) := by
  simp only [run, upTo, onward, conclude, declareAll_append, bind_assoc]

theorem registerTypes_insert (front back : List Decl) (e : Expr) :
    registerTypes (front ++ .statement e :: back) = registerTypes (front ++ back) := by
  induction front with
  | nil => rfl
  | cons d front ih => cases d <;> simp only [List.cons_append, registerTypes, ih]

theorem hoistFunctions_insert (front back : List Decl) (e : Expr) :
    hoistFunctions (front ++ .statement e :: back) = hoistFunctions (front ++ back) := by
  induction front with
  | nil => rfl
  | cons d front ih => cases d <;> simp only [List.cons_append, hoistFunctions, ih]

theorem upTo_insert (s : Setting) (front back : List Decl) (e : Expr) :
    upTo s (front ++ .statement e :: back) front = upTo s (front ++ back) front := by
  simp only [upTo, registerTypes_insert, hoistFunctions_insert]

theorem run_insert (s : Setting) (front back : List Decl) (e : Expr) :
    run s ⟨front ++ .statement e :: back⟩ = (do
      upTo s (front ++ back) front
      let typed ← infer s e
      record .exprStmt typed.type
      onward s back
      conclude) := by
  simp only [run_append, upTo_insert, onward, declareAll, declare, bind_assoc]

/-- When all names have been declared, all of them have their types. -/
theorem settles_upTo {program : Program} (h : program.Within φ) (config : Config)
    (hfront : front ⊆ program.declarations)
    (hnames : ∀ n, program.declares n → ∃ d ∈ front, d.typeName = some n) :
    Settles φ.Err (fun d => upTo ⟨config, d⟩ program.declarations front) empty fun _ p =>
      p.Sound (program.plan h) config ∧ p.env.Settled := by
  have hk : ∀ d ∈ front, ∀ n, d.typeName = some n → (program.plan h).known n :=
    fun d hd n hn => List.find?_isSome.mpr ⟨d, hfront hd, by simpa using hn⟩
  refine (settles_registerTypes φ.Err program.declarations empty).bind fun _ p₁ h₁ => ?_
  have hp₁ : p₁.Sound (program.plan h) config := sound_registered h h₁
  refine Settles.bind (gives_hoistFunctions h.declaration hp₁) ?_
  rintro _ p₂ ⟨hp₂, -, -⟩
  refine Settles.imp (gives_declareAll (fun d hd => h.declaration d (hfront hd)) hk hp₂) ?_
  rintro _ p₃ ⟨hp₃, -, hnoted, -⟩
  refine ⟨hp₃, settled_of_noted hp₃ fun n hn => ?_⟩
  obtain ⟨d, hd, hname⟩ := hnames n hn
  exact hnoted d hd n hname

theorem declared_in_front (hback : ∀ d ∈ back, d.typeName = none) (n : String)
    (h : Program.declares ⟨front ++ .statement e :: back⟩ n) :
    ∃ d ∈ front, d.typeName = some n := by
  obtain ⟨d, hd⟩ := Option.isSome_iff_exists.mp h
  obtain ⟨hmem, hname⟩ := Program.declaration?_eq_some hd
  rcases List.mem_append.mp hmem with hfront | hrest
  · exact ⟨d, hfront, hname⟩
  · rcases List.mem_cons.mp hrest with rfl | hmem
    · cases hname
    · rw [hback d hmem] at hname
      cases hname

/-- The rest of a pass comes to what it comes to without more that was reported before. -/
theorem onward_beside {hm : s.config.memoize.holds = false} {block : List Diagnostic}
    {own : List (NodeKind × Ty)} {q : Pass} {report report' : Report}
    (hq : (beside hm p block own).Joins p q)
    (h : ((do onward s back; conclude : PassM Report).run.run p).1 = .ok report)
    (h' : ((do onward s back; conclude : PassM Report).run.run q).1 = .ok report') :
    report'.values = report.values ∧ report'.aliases = report.aliases ∧
      Spliced p.diagnostics block report.diagnostics report'.diagnostics ∧
      Spliced p.nodes own report.nodes report'.nodes := by
  have honward : Abreast (fun _ => False) (beside hm p block own).Joins (onward s back)
      (onward s back) :=
    Abreast.bind ((beside hm p block own).tandem.matches_declareAll back) fun _ =>
      (beside hm p block own).tandem.matches_discharge
  rw [run_bind] at h h'
  rcases hrun : (onward s back).run.run p with ⟨f | _, r⟩
  · rw [hrun] at h
    cases h
  · obtain ⟨r', hrun', hr⟩ := honward hq hrun fun _ _ => id
    rw [hrun] at h
    rw [hrun'] at h'
    cases h
    cases h'
    exact ⟨congrArg Scope.sorted hr.scope, hr.aliases, hr.checks.world.diagnostics, hr.nodes⟩

end Pass

/-- A statement does not interfere with the rest of its program. If no verdicts are kept and all
type names are declared before it, then values and names come to have the same types with it as
without it, and what the program reports and the types of its nodes stay in the order in which they
are, with those of the statement put in where it stands. -/
theorem checkProgram_insert_statement (config : Config) (e : Expr) {front back : List Decl}
    (hmemo : config.memoize.holds = false) (hback : ∀ d ∈ back, d.typeName = none) :
    ∃ bound, ∀ depth, bound ≤ depth → ∀ report report',
      checkProgram ⟨config, depth⟩ ⟨front ++ back⟩ = .ok report →
      checkProgram ⟨config, depth⟩ ⟨front ++ .statement e :: back⟩ = .ok report' →
      report'.values = report.values ∧ report'.aliases = report.aliases ∧
      ∃ p typed p' block own,
        (Pass.upTo ⟨config, depth⟩ (front ++ back) front).run.run Pass.empty = (.ok (), p) ∧
        (Pass.infer ⟨config, depth⟩ e).run.run p = (.ok typed, p') ∧
        p'.diagnostics = p.diagnostics ++ block ∧ p'.nodes = p.nodes ++ own ∧
        Spliced p.diagnostics block report.diagnostics report'.diagnostics ∧
        Spliced p.nodes (own ++ [(.exprStmt, typed.type)]) report.nodes report'.nodes := by
  have hwithin := Program.within_features ⟨front ++ .statement e :: back⟩
  have hexpr := (hwithin.declaration (.statement e) (by simp)).exprs
  -- Up to the statement both passes are one and the same.
  obtain ⟨b₁, r₁, p, hrun₁, hr₁⟩ := Pass.settles_upTo hwithin config
    (List.subset_append_left _ _) (Pass.declared_in_front hback)
  simp only [Pass.upTo_insert] at hrun₁
  cases r₁ with
  | error f =>
    refine ⟨b₁, fun depth hd report report' h => ?_⟩
    rw [checkProgram, Pass.run_append, run_bind, hrun₁ depth hd] at h
    cases h
  | ok _ =>
    obtain ⟨b₂, r₂, p', hrun₂, hr₂⟩ := Pass.settles_infer_beside hmemo hr₁.1 hr₁.2 hexpr
    refine ⟨max b₁ b₂, fun depth hd report report' h h' => ?_⟩
    -- From here on one goes on at once, and the other after the expression.
    rw [checkProgram, Pass.run_append, run_bind, hrun₁ depth (by omega)] at h
    rw [checkProgram, Pass.run_insert, run_bind, hrun₁ depth (by omega)] at h'
    dsimp only at h h'
    rw [run_bind, hrun₂ depth (by omega)] at h'
    cases r₂ with
    | error f => cases h'
    | ok typed =>
      obtain ⟨block, own, hblock, hown, hjoins⟩ := hr₂
      obtain ⟨hvalues, haliases, hdiagnostics, hnodes⟩ :=
        Pass.onward_beside (hjoins depth (.exprStmt, typed.type)) h h'
      exact ⟨hvalues, haliases, p, typed, p', block, own, hrun₁ depth (by omega),
        hrun₂ depth (by omega), hblock, hown, hdiagnostics, hnodes⟩

namespace Amid

def config : Config := { Config.default with memoize := .bool false }

def item : Decl := .interface "Item" [⟨"next", .named "Item" none, true, none⟩] none [] none

def head : Decl := .value "head" .constBinding (some (.named "Item" none)) none none

/-- Something that items do not have. -/
def size : Expr := .access (.identifier "head" none) "size" none

def wrong : Decl :=
  .value "wrong" .constBinding (some (.prim .number)) (some (.literal (.text "one") none)) none

theorem checkProgram_insert_statement_amid :
    config.memoize.holds = false ∧ (∀ d ∈ [wrong], d.typeName = none) ∧
      ∃ bound report report', ∀ depth, bound ≤ depth →
        checkProgram ⟨config, depth⟩ ⟨[item, head] ++ [wrong]⟩ = .ok report ∧
        checkProgram ⟨config, depth⟩ ⟨[item, head] ++ [.statement size, wrong]⟩ = .ok report' ∧
        report'.values = report.values ∧ report'.aliases = report.aliases ∧
        ∃ p typed p' block own,
          (Pass.upTo ⟨config, depth⟩ [item, head, wrong] [item, head]).run.run Pass.empty =
            (.ok (), p) ∧
          (Pass.infer ⟨config, depth⟩ size).run.run p = (.ok typed, p') ∧
          p'.diagnostics = p.diagnostics ++ block ∧ p'.nodes = p.nodes ++ own ∧
          Spliced p.diagnostics block report.diagnostics report'.diagnostics ∧
          Spliced p.nodes (own ++ [(.exprStmt, typed.type)]) report.nodes report'.nodes := by
  have hmemo : config.memoize.holds = false := by decide
  have hback : ∀ d ∈ [wrong], d.typeName = none := by decide
  obtain ⟨b, hb⟩ := @checkProgram_insert_statement config size [item, head] [wrong] hmemo hback
  obtain ⟨b₁, report, hreport⟩ := @Pass.exists_report config ⟨[item, head] ++ [wrong]⟩
    (by decide) (by decide)
  obtain ⟨b₂, report', hreport'⟩ := @Pass.exists_report config
    ⟨[item, head] ++ [.statement size, wrong]⟩ (by decide) (by decide)
  refine ⟨hmemo, hback, max b (max b₁ b₂), report, report', fun depth hdepth => ?_⟩
  have h₁ := hreport depth (by omega)
  have h₂ := hreport' depth (by omega)
  exact ⟨h₁, h₂, hb depth (by omega) report report' h₁ h₂⟩

end Amid
end ShapeCheck
