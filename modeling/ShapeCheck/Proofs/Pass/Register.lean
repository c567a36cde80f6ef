import ShapeCheck.Pass.Run
import ShapeCheck.Proofs.Pass.Infer
import ShapeCheck.Proofs.Tree.Graph

/-! Registering the type names of a program. Every name gets one cell, for its first declaration,
and with the cells in place the plan of the program is kept from then on. -/

namespace ShapeCheck

namespace Decl
variable {d : Decl} {ds : List Decl} {seen : List String} {n : String}

/-- The cell of a type that is declared. -/
def cell : Decl → Cell
  | .typeAlias name body span => ⟨name, span, .waiting (Build.ofAlias name body), false⟩
  | .interface name properties index bases span =>
    ⟨name, span, .waiting (Build.ofInterface name properties index bases span), false⟩
  | _ => ⟨"", none, .waiting default, false⟩

theorem cell_name (h : d.typeName = some n) : d.cell.name = n := by
  cases d <;> simp_all [typeName, cell]

theorem cell_progress (d : Decl) : d.cell.progress = .waiting d.recipe := by cases d <;> rfl

theorem cell_circular (d : Decl) : d.cell.circular = false := by cases d <;> rfl

/-- The declarations of types whose names have not been seen. -/
def firsts (seen : List String) : List Decl → List Decl
  | [] => []
  | d :: ds =>
    match d.typeName with
    | none => firsts seen ds
    | some n => if n ∈ seen then firsts seen ds else d :: firsts (seen ++ [n]) ds

theorem firsts_of_none (h : d.typeName = none) : firsts seen (d :: ds) = firsts seen ds := by
  simp only [firsts, h]

theorem firsts_of_some (h : d.typeName = some n) :
    firsts seen (d :: ds) =
      if n ∈ seen then firsts seen ds else d :: firsts (seen ++ [n]) ds := by
  simp only [firsts, h]

theorem typeName_of_mem_firsts (h : d ∈ firsts seen ds) :
    ∃ n, d.typeName = some n ∧ n ∉ seen := by
  induction ds generalizing seen with
  | nil => cases h
  | cons a ds ih =>
    cases ha : a.typeName with
    | none => exact ih (firsts_of_none ha ▸ h)
    | some m =>
      rw [firsts_of_some ha] at h
      split at h
      · exact ih h
      · rcases List.mem_cons.mp h with rfl | h
        · exact ⟨m, ha, ‹_›⟩
        · obtain ⟨n, hn, hseen⟩ := ih h
          exact ⟨n, hn, fun hm => hseen (List.mem_append_left _ hm)⟩

/-- What is kept for a name is its first declaration. -/
theorem mem_firsts_iff (hn : n ∉ seen) :
    d ∈ firsts seen ds ∧ d.typeName = some n ↔ ds.find? (·.typeName = some n) = some d := by
  induction ds generalizing seen with
  | nil => simp [firsts]
  | cons a ds ih =>
    cases ha : a.typeName with
    | none => simpa [firsts_of_none ha, ha] using ih hn
    | some m =>
      rw [firsts_of_some ha]
      by_cases hm : m = n
      · subst hm
        have hother : d ∈ firsts (seen ++ [m]) ds → d.typeName ≠ some m := by
          intro hd he
          obtain ⟨k, hk, hseen⟩ := typeName_of_mem_firsts hd
          cases hk.symm.trans he
          exact hseen (by simp)
        simp only [hn, if_false, List.find?_cons, ha, decide_true, Option.some.injEq,
          List.mem_cons]
        constructor
        · rintro ⟨rfl | hd, he⟩
          · rfl
          · exact (hother hd he).elim
        · rintro rfl
          exact ⟨.inl rfl, ha⟩
      · have hfind : (a :: ds).find? (·.typeName = some n) = ds.find? (·.typeName = some n) := by
          simp [ha, hm]
        rw [hfind]
        split
        · exact ih hn
        · have hseen : n ∉ seen ++ [m] := by simpa [hn] using Ne.symm hm
          rw [← ih hseen, List.mem_cons]
          constructor
          · rintro ⟨rfl | hd, he⟩
            · exact (hm (Option.some.inj (ha.symm.trans he))).elim
            · exact ⟨hd, he⟩
          · exact fun h => ⟨.inr h.1, h.2⟩

theorem nodup_firsts (seen : List String) (ds : List Decl) :
    ((firsts seen ds).map (·.cell.name)).Nodup := by
  induction ds generalizing seen with
  | nil => exact List.nodup_nil
  | cons a ds ih =>
    cases ha : a.typeName with
    | none => rw [firsts_of_none ha]; exact ih seen
    | some m =>
      rw [firsts_of_some ha]
      split
      · exact ih seen
      · refine List.nodup_cons.mpr ⟨fun hm => ?_, ih _⟩
        obtain ⟨d, hd, he⟩ := List.mem_map.mp hm
        obtain ⟨n, hn, hseen⟩ := typeName_of_mem_firsts hd
        have hcell : n = m := (cell_name hn).symm.trans (he.trans (cell_name ha))
        exact hseen (by simp [hcell])

theorem firsts_cons (seen : List String) (d : Decl) (ds : List Decl) :
    firsts seen (d :: ds) =
      firsts seen [d] ++ firsts (seen ++ (firsts seen [d]).map (·.cell.name)) ds := by
  cases hn : d.typeName with
  | none => simp [firsts, hn]
  | some n => by_cases hm : n ∈ seen <;> simp [firsts, hn, hm, cell_name hn]

end Decl

/-- The declarations that type names stand for. -/
def Program.firsts (p : Program) : List Decl := Decl.firsts [] p.declarations

theorem Program.mem_firsts_iff {p : Program} {d : Decl} {n : String} :
    d ∈ p.firsts ∧ d.typeName = some n ↔ p.declaration? n = some d :=
  Decl.mem_firsts_iff (by simp)

theorem Env.isDefined_iff {env : Env} {n : String} : env.isDefined n ↔ n ∈ env.names := by
  simp [isDefined, find?, names]

namespace Pass
variable {φ : Features} {p : Pass} {ds : List Decl} {program : Program} {config : Config}

/-- The pass with more cells, and problems that came up with them. -/
def withCells (cells : List Cell) (said : List Diagnostic) (p : Pass) : Pass :=
  { p with
    checks.world :=
      { p.env with
        cells := p.env.cells ++ cells
        diagnostics := p.env.diagnostics ++ said } }

theorem withCells_withCells (cells cells' : List Cell) (said said' : List Diagnostic) (p : Pass) :
    (p.withCells cells said).withCells cells' said' =
      p.withCells (cells ++ cells') (said ++ said') := by
  simp [withCells, env]

/-- Each name gets one cell, and what has no cell is reported. -/
def Registers (ds : List Decl) (p p' : Pass) : Prop :=
  ∃ said : List Diagnostic, p' = p.withCells ((Decl.firsts p.env.names ds).map Decl.cell) said ∧
    (∀ d ∈ said, d.kind = .typeMismatch) ∧
      (said = [] → ∀ d ∈ ds, d.typeName.isSome → d ∈ Decl.firsts p.env.names ds)

theorem registers_nil (p : Pass) : Registers [] p p :=
  ⟨[], by simp [withCells, Decl.firsts, env], by simp, by simp⟩

theorem registers_cons {p' p'' : Pass} {d : Decl} (h : Registers [d] p p')
    (h' : Registers ds p' p'') : Registers (d :: ds) p p'' := by
  obtain ⟨said, rfl, hsaid, hfirst⟩ := h
  obtain ⟨said', rfl, hsaid', hfirst'⟩ := h'
  have hnames : (p.withCells ((Decl.firsts p.env.names [d]).map Decl.cell) said).env.names =
      p.env.names ++ (Decl.firsts p.env.names [d]).map (·.cell.name) := by
    simp [withCells, env, Env.names]
  rw [hnames] at hfirst' ⊢
  refine ⟨said ++ said', ?_, List.forall_mem_append.mpr ⟨hsaid, hsaid'⟩, fun hnil b hb hs => ?_⟩
  · rw [withCells_withCells, Decl.firsts_cons _ d ds, List.map_append]
  · obtain ⟨rfl, rfl⟩ := List.append_eq_nil_iff.mp hnil
    rw [Decl.firsts_cons _ d ds, List.mem_append]
    rcases List.mem_cons.mp hb with rfl | hb
    · exact .inl (hfirst rfl b List.mem_cons_self hs)
    · exact .inr (hfirst' rfl b hb hs)

theorem registers_other {d : Decl} (hn : d.typeName = none) : Registers [d] p p := by
  refine ⟨[], by simp [withCells, Decl.firsts, env, hn], by simp, ?_⟩
  rintro - b hb hs
  rw [List.mem_singleton.mp hb, hn] at hs
  cases hs

theorem registers_repeated {d : Decl} {r : Diagnostic} (hk : r.kind = .typeMismatch)
    (hd : Decl.firsts p.env.names [d] = []) : Registers [d] p (p.withReport r) := by
  refine ⟨[r], ?_, List.forall_mem_singleton.mpr hk, by simp⟩
  rw [hd, List.map_nil, withCells, List.append_nil]
  rfl

theorem settles_defineType (Err : Fault → Prop) {d : Decl} {name : String}
    (hn : d.typeName = some name) :
    Settles Err (fun _ => defineType name d.recipe d.cell.span) p fun _ p' =>
      Registers [d] p p' := by
  refine Settles.get_bind ?_
  by_cases hdef : p.env.isDefined name
  · rw [if_pos hdef]
    have hfirsts : Decl.firsts p.env.names [d] = [] := by
      simp [Decl.firsts, hn, Env.isDefined_iff.mp hdef]
    exact (settles_report Err _ p).imp fun _ _ hp => hp ▸ registers_repeated rfl hfirsts
  · rw [if_neg hdef]
    have hfirsts : Decl.firsts p.env.names [d] = [d] := by
      simp [Decl.firsts, hn, mt Env.isDefined_iff.mpr hdef]
    have hdefine : Settles Err (fun _ => Env.define name d.recipe d.cell.span) p.env
        fun _ env => env = { p.env with cells := p.env.cells ++ [d.cell] } := by
      refine Settles.get_bind ?_
      rw [if_neg hdef]
      refine settles_modify ?_
      cases d <;> simp_all [Decl.cell, Decl.typeName, Decl.recipe]
    refine (settles_naming hdefine).imp ?_
    rintro _ p' ⟨henv, hp'⟩
    rw [Registers, hfirsts]
    refine ⟨[], ?_, by simp, fun _ b hb _ => hb⟩
    rw [hp', henv]
    simp [withCells]

theorem settles_registerTypes (Err : Fault → Prop) (ds : List Decl) (p : Pass) :
    Settles Err (fun _ => registerTypes ds) p fun _ p' => Registers ds p p' := by
  induction ds generalizing p with
  | nil => exact settles_pure (registers_nil p)
  | cons d ds ih =>
    cases d with
    | typeAlias name body span =>
      exact (settles_defineType Err (d := .typeAlias name body span) rfl).bind fun _ p' h =>
        (ih p').imp fun _ _ => registers_cons h
    | interface name properties index bases span =>
      exact (settles_defineType Err (d := .interface name properties index bases span) rfl).bind
        fun _ p' h => (ih p').imp fun _ _ => registers_cons h
    | _ => exact (ih p).imp fun _ _ => registers_cons (registers_other rfl)

/-- With the cells of a program in place and nothing else done, its plan is kept. -/
theorem kept_of_cells {env : Env} (h : program.Within φ)
    (hc : env.cells = program.firsts.map Decl.cell) (hr : env.resolving = [])
    (hd : env.duties = []) (hl : Diagnostic.ofKind .circularAlias env.diagnostics = []) :
    env.Kept (program.plan h) := by
  have hcell : ∀ c ∈ env.cells, ∃ d n, program.declaration? n = some d ∧ c.name = n ∧
      c.progress = .waiting d.recipe ∧ c.circular = false := by
    intro c hm
    rw [hc] at hm
    obtain ⟨d, hd, rfl⟩ := List.mem_map.mp hm
    obtain ⟨n, hn, -⟩ := Decl.typeName_of_mem_firsts hd
    exact ⟨d, n, Program.mem_firsts_iff.mp ⟨hd, hn⟩, d.cell_name hn, d.cell_progress,
      d.cell_circular⟩
  have hnames : env.names = program.firsts.map (·.cell.name) := by
    simp [Env.names, hc]
  refine ⟨?_, fun n => ?_, fun c hm => ?_, by simp [hr], by simp [hr], ⟨[], hl, List.nodup_nil,
    fun n => ?_⟩, by simp [hd]⟩
  · rw [hnames]
    exact Decl.nodup_firsts [] program.declarations
  · rw [Bool.eq_iff_iff, Env.isDefined_iff, hnames, List.mem_map]
    constructor
    · rintro ⟨d, hd, rfl⟩
      obtain ⟨n, hn, -⟩ := Decl.typeName_of_mem_firsts hd
      rw [Decl.cell_name hn]
      exact Option.isSome_iff_exists.mpr ⟨d, Program.mem_firsts_iff.mp ⟨hd, hn⟩⟩
    · intro hn
      obtain ⟨d, hd⟩ := Option.isSome_iff_exists.mp hn
      obtain ⟨hd, hn⟩ := Program.mem_firsts_iff.mpr hd
      exact ⟨d, hd, Decl.cell_name hn⟩
  · obtain ⟨d, n, hdecl, hn, hp, hcirc⟩ := hcell c hm
    simp only [Cell.Kept, hp, hcirc, Program.plan, hn, hdecl, Option.map_some, Option.getD_some,
      and_self]
  · simp only [List.map_nil, List.not_mem_nil, iff_false, Env.isCircular]
    cases hf : env.find? n with
    | none => simp
    | some c =>
      obtain ⟨d, m, -, -, -, hcirc⟩ := hcell c (Env.find?_eq_some hf).1
      simp [hcirc]

theorem sound_registered (h : program.Within φ) (hp : Registers program.declarations empty p) :
    p.Sound (program.plan h) config := by
  obtain ⟨said, rfl, hsaid, -⟩ := hp
  have hl : Diagnostic.ofKind .circularAlias said = [] :=
    List.filter_eq_nil_iff.mpr fun d hd => by simp [hsaid d hd]
  refine ⟨⟨⟨kept_of_cells h rfl rfl rfl hl, rfl⟩, rfl, fun _ N _ => nofun⟩, ?_, ?_⟩
  · simp [withCells, empty, Scope.empty]
  · simp [withCells, empty]

/-- What the recipes of the cells will leave behind, and what was reported. -/
theorem tally_registered (hp : Registers program.declarations empty p) :
    ∃ said : List Diagnostic, (∀ d ∈ said, d.kind.isPlain) ∧
      (p.env.diagnostics = [] → ∀ d ∈ program.declarations, d.typeName.isSome →
        d ∈ program.firsts) ∧
      ∀ N : Naming, p.env.tally N =
        said.map .say ++ program.firsts.flatMap fun d => (d.recipe.under N).left := by
  obtain ⟨said, rfl, hsaid, hfirst⟩ := hp
  refine ⟨said, fun d hd => by rw [hsaid d hd]; rfl, fun hnil => hfirst (by simpa [withCells, env,
    empty, Env.empty] using hnil), fun N => ?_⟩
  have hkind : said.filter (!·.kind.ofLookup) = said :=
    List.filter_eq_self.mpr fun d hd => by rw [hsaid d hd]; rfl
  simp only [Env.tally, withCells, env, empty, Env.empty, List.nil_append, hkind, List.map_nil,
    List.append_nil, List.flatMap_map, Cell.due, Decl.cell_progress]
  rfl

end Pass
end ShapeCheck
