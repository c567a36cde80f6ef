import ShapeCheck.Proofs.Pass.Indexes
import ShapeCheck.Proofs.Tree.Inherit

/-! Interfaces against the bases they extend, in programs that are found free of problems. An
interface fits a base unless it makes a property optional that the base requires, an earlier base
has the property or the index as well, the interface declares an index of its own, or nothing fits
the base. -/

namespace ShapeCheck
variable {φ : Features} {N : Naming} {defined : String → Bool} {variance : Variance}

/-- The type that a report gives for a name. One that is not declared stands for `any`. -/
def Pass.Report.typeOf (r : Report) (name : String) : Ty := (r.aliases.lookup name).getD Ty.any

/-- An interface with these properties and this index fits a base in the points that are left open
when it is built: what may be missing, the properties that earlier bases have as well, and the
index, unless it is the one of this base. -/
structure MeetsBase (Fits : Ty → Ty → Prop) (declaresIndex : Bool) (earlier : List Ty)
    (fs : List (Field Ty)) (own : Option (Index Ty)) (gs : List (Field Ty))
    (wanted : Option (Index Ty)) : Prop where
  required : ∀ g ∈ gs, ∀ f, Field.find? fs g.name = some f → f.optional → g.optional
  shared : ∀ g ∈ gs, (∃ t ∈ earlier, (t.field? g.name).isSome) →
    ∀ f, Field.find? fs g.name = some f → Fits f.type g.type
  index : ∀ i, wanted = some i → declaresIndex ∨ (∃ t ∈ earlier, t.index?.isSome) →
    (∀ f ∈ fs, Fits f.type i.value) ∧ ∀ o, own = some o → Fits o.value i.value

section Objects
variable {fs gs : List (Field Ty)} {own wanted : Option (Index Ty)} {n m : Option String}

theorem MeetsBase.imp {Fits Fits' : Ty → Ty → Prop} {declaresIndex : Bool} {earlier : List Ty}
    (h : ∀ {s t}, Ty.Within φ s → Ty.Within φ t → Fits s t → Fits' s t)
    (hs : Ty.Within φ (.object fs own n)) (ht : Ty.Within φ (.object gs wanted m))
    (hk : MeetsBase Fits declaresIndex earlier fs own gs wanted) :
    MeetsBase Fits' declaresIndex earlier fs own gs wanted where
  required := hk.required
  shared g hg he f hf :=
    h (hs.field f (Field.find?_eq_some hf).1) (ht.field g hg) (hk.shared g hg he f hf)
  index i hi he :=
    ⟨fun f hf => h (hs.field f hf) (ht.index i hi).2 ((hk.index i hi he).1 f hf),
      fun o ho => h (hs.index o ho).2 (ht.index i hi).2 ((hk.index i hi he).2 o ho)⟩

theorem not_assignable_never : ¬(N.reading variance).Assignable (.object fs own n) Ty.never := by
  intro h
  cases Reading.assignable_iff.mp h with
  | equal hsame => simp [Ty.same_object_iff, Naming.reading, Naming.look] at hsame

/-- An object whose properties fit its own index is assignable to another exactly if its properties
and its index are. -/
theorem Naming.Fair.assignable_objects_iff (hN : N.Fair φ defined)
    (hs : Ty.Within φ (.object fs own n)) (ht : Ty.Within φ (.object gs wanted m))
    (hown : ∀ i, own = some i → ∀ f ∈ fs, (N.reading variance).Assignable f.type i.value) :
    (N.reading variance).Assignable (.object fs own n) (.object gs wanted m) ↔
      (∀ g ∈ gs, Reading.FieldFits (N.reading variance).Assignable fs g) ∧
        Reading.IndexFits (N.reading variance).Assignable fs own wanted := by
  have hR := Reading.respects_assignable (hN.faithful variance)
  have hindex : ∀ i, own = some i → Ty.Within φ i.value := fun i hi => (hs.index i hi).2
  rw [Reading.assignable_iff]
  constructor
  · intro hfits
    cases hfits with
    | objects hf hi => exact ⟨hf, hi⟩
    | equal hsame =>
      obtain ⟨_, _, _, he, hfields, hindexes⟩ := Ty.same_object_iff.mp hsame
      cases he
      have hrefl : List.Forall₂ Field.Same fs fs :=
        List.forall₂_same.mpr fun f _ => ⟨rfl, rfl, Ty.same_refl _⟩
      constructor
      · intro g hg
        obtain ⟨f, hf, hfg⟩ := forall₂_mem_right hfields hg
        refine Reading.FieldFits.same hR hs.field hs.field (hs.field f hf) (ht.field g hg) hrefl hfg
          ?_
        unfold Reading.FieldFits
        rw [Field.find?_of_mem hs.here.shaped hf]
        exact ⟨id, Reading.assignable_refl _⟩
      · refine Reading.IndexFits.same hR hs.field hs.field hindex hindex hindex
          (fun i hi => (ht.index i hi).2) hrefl ?_ hindexes ?_
        · cases own with
          | none => exact .none
          | some i => exact .some ⟨rfl, Ty.same_refl _⟩
        · rintro i rfl
          refine ⟨hown i rfl, ?_⟩
          rintro _ ⟨⟩
          exact Reading.assignable_refl _
  · rintro ⟨hf, hi⟩
    exact .objects hf hi

end Objects

/-- An interface that is built without a problem, refines what it inherits and fits its own
index. -/
structure Build.Refined (R : Reading) (N : Naming) (name : String)
    (properties : List (PropertySig TypeExpr)) (declared : Option (IndexSig TypeExpr))
    (bases : List (String × Option Span)) (span : Option Span) (fs : List (Field Ty))
    (own : Option (Index Ty)) : Prop
    extends Interface N name properties declared bases span fs own where
  refines : (Obligation.refinement name (properties.map fun p => (p.name, p.span <|> span)) fs
    (inherited N bases).fields).Refines R
  fits : ∀ i, own = some i → ∀ f ∈ fs, R.Assignable f.type i.value

namespace Build.Refined
variable {name base : String} {place span : Option Span}
  {properties : List (PropertySig TypeExpr)} {declared : Option (IndexSig TypeExpr)}
  {earlier later : List (String × Option Span)} {fs gs : List (Field Ty)} {R : Reading}
  {own wanted : Option (Index Ty)} {n : Option String}

/-- The field that the interface has for one of a base. -/
theorem fieldFits {g : Field Ty}
    (hi : Refined R N name properties declared (earlier ++ (base, place) :: later) span fs own)
    (hk : MeetsBase R.Assignable declared.isSome (earlier.map (N.bound ·.1)) fs own gs wanted)
    (hg : g ∈ gs) (hfield : (N.bound base).field? g.name = some g) :
    Reading.FieldFits R.Assignable fs g := by
  obtain ⟨f, hf⟩ := Option.isSome_iff_exists.mp
    (hi.kept g.name (isSome_find?_inherited (by rw [hfield]; rfl)))
  rw [Reading.FieldFits, hf]
  refine ⟨hk.required g hg f hf, ?_⟩
  by_cases hearlier : ∃ t ∈ earlier.map (N.bound ·.1), (t.field? g.name).isSome
  · exact hk.shared g hg hearlier f hf
  · have hfirst : Field.find? (inherited N (earlier ++ (base, place) :: later)).fields g.name =
        some g := find?_inherited_of_first hfield hearlier
    -- A property that is declared again was compared, and any other is the inherited one.
    by_cases hdeclared : g.name ∈ properties.map (·.name)
    · obtain ⟨q, hq, hname⟩ := List.mem_map.mp hdeclared
      rw [← hname] at hf hfirst
      exact hi.refines _ (List.mem_map_of_mem hq) g f hfirst hf
    · rw [hi.undeclared g.name hdeclared, hfirst] at hf
      cases hf
      exact Reading.assignable_refl _

theorem indexFits
    (hi : Refined R N name properties declared (earlier ++ (base, place) :: later) span fs own)
    (hk : MeetsBase R.Assignable declared.isSome (earlier.map (N.bound ·.1)) fs own gs wanted)
    (hindex : (N.bound base).index? = wanted) : Reading.IndexFits R.Assignable fs own wanted := by
  intro i hwanted
  by_cases hopen : declared.isSome ∨ ∃ t ∈ earlier.map (N.bound ·.1), t.index?.isSome
  · exact hk.index i hwanted hopen
  · obtain ⟨hnone, hearlier⟩ := not_or.mp hopen
    have hfirst : (inherited N (earlier ++ (base, place) :: later)).index = some i :=
      index_inherited_of_first (hindex.trans hwanted) hearlier
    have htaken := (hi.taken (Option.not_isSome_iff_eq_none.mp hnone)).trans hfirst
    refine ⟨hi.fits i htaken, fun o ho => ?_⟩
    cases htaken.symm.trans ho
    exact Reading.assignable_refl _

/-- The interface fits a base exactly if it does so in the points that are left open. -/
theorem assignable_iff (hN : N.Fair φ defined)
    (hi : Refined (N.reading variance) N name properties declared
      (earlier ++ (base, place) :: later) span fs own)
    (hs : Ty.Within φ (.object fs own n)) :
    (N.reading variance).Assignable (.object fs own n) (N.bound base) ↔
      N.bound base ≠ Ty.never ∧ ∀ gs wanted m, N.bound base = .object gs wanted m →
        MeetsBase (N.reading variance).Assignable declared.isSome (earlier.map (N.bound ·.1)) fs own
          gs wanted := by
  have hfirm := hN.firm base
  rcases hi.base (base, place) (by simp) with hb | hb | ⟨gs, wanted, m, hb⟩
  · rw [show N.bound base = Ty.any from hb]
    exact ⟨fun _ => ⟨by simp, by simp⟩, fun _ => Reading.assignable_iff.mpr (.toAny _)⟩
  · rw [show N.bound base = Ty.never from hb]
    exact ⟨fun h => (not_assignable_never h).elim, fun h => (h.1 rfl).elim⟩
  · have hb : N.bound base = .object gs wanted m := hb
    rw [hb] at hfirm ⊢
    rw [hN.assignable_objects_iff hs hfirm.within hi.fits]
    constructor
    · rintro ⟨hfields, hindexes⟩
      refine ⟨by simp, ?_⟩
      rintro _ _ _ ⟨⟩
      have hfits : ∀ g ∈ gs, ∀ f, Field.find? fs g.name = some f →
          (f.optional → g.optional) ∧ (N.reading variance).Assignable f.type g.type := by
        intro g hg f hf
        have hfit := hfields g hg
        rwa [Reading.FieldFits, hf] at hfit
      exact ⟨fun g hg f hf => (hfits g hg f hf).1, fun g hg _ f hf => (hfits g hg f hf).2,
        fun i hi _ => hindexes i hi⟩
    · rintro ⟨-, hkeeps⟩
      have hk := hkeeps gs wanted m rfl
      refine ⟨fun g hg => hi.fieldFits hk hg ?_, hi.indexFits hk ?_⟩
      · rw [hb]
        exact Field.find?_of_mem hfirm.within.here.shaped hg
      · rw [hb]
        rfl

end Build.Refined

namespace Pass.Concludes
variable {program : Program} {h : program.Within φ} {config : Config} {report : Report} {p : Pass}
  {n : String} {d : Decl}

theorem typeOf_eq (hc : Concludes h config report p) (n : String) :
    report.typeOf n = p.env.naming.bound n := by
  rw [Report.typeOf, hc.lookup_eq n]
  by_cases hn : program.declares n
  · rw [if_pos hn, Option.getD_some]
  · rw [if_neg hn, Option.getD_none, hc.bound_of_not_declares (by simpa using hn)]

theorem isCircular_of_nil (hc : Concludes h config report p) (hnil : report.diagnostics = [])
    (n : String) : p.env.isCircular n = false := by
  obtain ⟨loops, hreports, -, hexact⟩ := hc.sound.idle.kept.loops
  rw [← hc.diagnostics, hnil] at hreports
  have hloops : loops = [] := List.map_eq_nil_iff.mp hreports.symm
  simpa [hloops] using hexact n

/-- If there are no problems, recipes find none, and the checks they leave are made. -/
theorem owed_of_nil (hc : Concludes h config report p) (hni : ¬φ.inter)
    (hnil : report.diagnostics = []) :
    ∀ deed ∈ program.leaves p.env.naming, ∃ duty ∈ p.env.duties, deed = .owe duty := by
  intro deed hd
  obtain ⟨_, _, -, -, -, haccount⟩ := hc.tally
  obtain ⟨said, -, hperm⟩ := haccount hni
  have hm := hperm.mem_iff.mpr (List.mem_append_left _ (List.mem_append_left _
    (List.mem_append_left _ hd)))
  rw [hc.tally_eq, ← hc.diagnostics, hnil] at hm
  obtain ⟨duty, hduty, rfl⟩ := List.mem_map.mp hm
  exact ⟨duty, hduty, rfl⟩

/-- If there are no problems, the fields of every object fit its index. -/
theorem fits_of_nil (hc : Concludes h config report p) (hni : ¬φ.inter)
    (hnil : report.diagnostics = []) {o : Site} (ho : o ∈ program.sites p.env.naming) :
    ∀ f ∈ o.fields,
      (p.env.naming.reading config.variance).Assignable f.type o.index.value := by
  obtain ⟨_, _, -, -, -, hperm⟩ := hc.violations_perm hni
  rw [hnil] at hperm
  have hnone := (List.append_eq_nil_iff.mp hperm.symm.eq_nil).1
  have hreports := List.flatMap_eq_nil_iff.mp hnone o ho
  intro f hf
  by_contra hmisfit
  exact (hc.reports_ne_nil_iff hni ho).mpr ⟨f, hf, hmisfit⟩ hreports

/-- If there are no problems, an interface is what it declares and inherits, refines what it
inherits and fits its own index. -/
theorem refined_of_nil (hc : Concludes h config report p) (hni : ¬φ.inter)
    (hnil : report.diagnostics = []) {properties : List (PropertySig TypeExpr)}
    {declared : Option (IndexSig TypeExpr)} {bases : List (String × Option Span)}
    {span : Option Span} (hm : .interface n properties declared bases span ∈ program.declarations) :
    ∃ fs own, p.env.naming.bound n = .object fs own (some n) ∧
      Build.Refined (p.env.naming.reading config.variance) p.env.naming n properties declared bases
        span fs own := by
  have hN := hc.sound.idle.kept.completes
  have hfirst := hc.apart hnil _ hm rfl
  obtain ⟨t, hresult, hbound⟩ := hc.result_recipe (Program.mem_firsts_iff.mp ⟨hfirst, rfl⟩)
  obtain ⟨fs, own, rfl, hi⟩ := Build.interface_of_quiet hN.toFair hresult fun d hd => by
    obtain ⟨_, _, he⟩ := hc.owed_of_nil hni hnil _ (Program.mem_leaves hfirst hd)
    cases he
  refine ⟨fs, own, hbound (hc.isCircular_of_nil hnil n), hi, ?_, fun i hown => ?_⟩
  · obtain ⟨duty, hduty, he⟩ := hc.owed_of_nil hni hnil _ (Program.mem_leaves hfirst hi.owed)
    cases he
    exact hc.met _ hduty hni (hc.diagnostics ▸ hnil) _ hN
  · refine hc.fits_of_nil hni hnil (o := ⟨fs, i, some n, span⟩)
      (Program.mem_sites hfirst (List.mem_append_right _ ?_))
    rw [hi.site i hown]
    exact List.mem_singleton_self _

end Pass.Concludes

/-- Interfaces fit their bases as far as that is checked. In a program without intersections that is
found free of problems, an interface is assignable to a base exactly if the base is not `never` and
the interface fits it in the points that are left open: what may be missing, the properties that
earlier bases have as well, and the index, unless it is the one of this base. -/
theorem checkProgram_refines_bases (config : Config) (program : Program)
    (hni : ¬program.hasInter) :
    ∃ bound outcome p,
      (∀ depth, bound ≤ depth →
        (Pass.run ⟨config, depth⟩ program).run.run Pass.empty = (outcome, p)) ∧
      (program.wellFormed → ∃ report, outcome = .ok report) ∧
      ∀ report, outcome = .ok report → report.diagnostics = [] →
        ∀ name properties declared earlier base place later span,
          Decl.interface name properties declared (earlier ++ (base, place) :: later) span ∈
            program.declarations →
          ∃ fs own, report.typeOf name = .object fs own (some name) ∧
            ∀ yes, p.Answers config (report.typeOf name) (report.typeOf base) yes ↔
              (yes = true ↔ report.typeOf base ≠ Ty.never ∧
                ∀ gs wanted m, report.typeOf base = .object gs wanted m →
                  MeetsBase (p.Answers config · · true) declared.isSome
                    (earlier.map (report.typeOf ·.1)) fs own gs wanted) := by
  obtain ⟨bound, outcome, p, hrun, hok, hr⟩ := Pass.exists_concludes config program hni
  refine ⟨bound, outcome, p, hrun, hok, fun report hreport hnil => ?_⟩
  have hc := hr report hreport
  have hN := hc.sound.idle.kept.completes
  have hanswers : ∀ {s t : Ty}, Ty.Within program.features s → Ty.Within program.features t →
      (p.Answers config s t true ↔ (p.env.naming.reading config.variance).Assignable s t) :=
    fun hs ht => by simp [hc.answers_iff hni hs ht]
  intro name properties declared earlier base place later span hm
  obtain ⟨fs, own, hbound, hi⟩ := hc.refined_of_nil hni hnil hm
  have hs := (hN.firm name).within
  rw [hbound] at hs
  simp only [hc.typeOf_eq, hbound]
  refine ⟨fs, own, rfl, fun yes => ?_⟩
  rw [hc.answers_iff hni hs (hN.firm base).within, hi.assignable_iff hN.toFair hs]
  have hkeeps : ∀ gs wanted m, p.env.naming.bound base = .object gs wanted m →
      (MeetsBase (p.env.naming.reading config.variance).Assignable declared.isSome
          (earlier.map (p.env.naming.bound ·.1)) fs own gs wanted ↔
        MeetsBase (p.Answers config · · true) declared.isSome
          (earlier.map (p.env.naming.bound ·.1)) fs own gs wanted) := by
    intro gs wanted m hb
    have ht := (hN.firm base).within
    rw [hb] at ht
    exact ⟨.imp (fun hs ht => (hanswers hs ht).mpr) hs ht,
      .imp (fun hs ht => (hanswers hs ht).mp) hs ht⟩
  refine iff_congr Iff.rfl (and_congr_right fun _ => forall₃_congr fun gs wanted m => ?_)
  exact forall_congr' (hkeeps gs wanted m)

/-- An interface that narrows one property of its base and inherits the other. -/
def narrowed : Program where
  declarations :=
    [.interface "Base" [⟨"id", .union [.prim .string, .prim .number], false, none⟩,
        ⟨"note", .prim .string, true, none⟩] none [] none,
      .interface "Item" [⟨"id", .prim .string, false, none⟩] none [("Base", none)] none]

namespace Narrowed

def baseFields : List (Field Ty) :=
  [⟨"id", .union [.prim .number, .prim .string], false⟩, ⟨"note", .prim .string, true⟩]

def itemFields : List (Field Ty) := [⟨"id", .prim .string, false⟩, ⟨"note", .prim .string, true⟩]

def types : List (String × Ty) :=
  [("Base", .object baseFields none (some "Base")), ("Item", .object itemFields none (some "Item"))]

/-- What the pass knows when all names are bound and the checks that had to wait are still due. -/
def declared : Pass where
  checks :=
    { memo := Memo.empty
      world :=
        { cells := types.map fun a => ⟨a.1, none, .settled a.2, false⟩
          resolving := []
          missing := []
          diagnostics := []
          duties :=
            [.refinement "Base" [("id", none), ("note", none)] baseFields [],
              .refinement "Item" [("id", none)] itemFields baseFields] } }
  scope := ⟨[]⟩
  nodes := types.map (.interfaceDecl, ·.2)
  aliases := types

/-- The part of the pass that comes before the checks that had to wait. -/
def declareTypes (s : Setting) : PassM Unit := do
  Pass.registerTypes narrowed.declarations
  Pass.hoistFunctions narrowed.declarations
  Pass.declareAll s narrowed.declarations

theorem run_declareTypes (s : Setting) :
    (declareTypes s).run.run Pass.empty = (.ok (), declared) := rfl

/-- The interface is found to fit. Two levels are enough, since a string fits a union through one of
its members. -/
theorem run_narrowed (depth : Nat) :
    ∃ report p, (Pass.run ⟨Config.default, depth + 2⟩ narrowed).run.run Pass.empty =
      (.ok report, p) ∧ report.diagnostics = [] ∧ report.aliases = types := by
  have hsplit : ∀ s, Pass.run s narrowed = declareTypes s >>= fun _ => Pass.discharge s >>= fun _ =>
      get >>= fun p => pure ⟨p.diagnostics, p.scope.sorted, p.aliases, p.nodes⟩ := fun s => by
    simp only [declareTypes, Pass.run, bind_assoc]
  rw [hsplit, run_bind, run_declareTypes]
  exact ⟨_, _, rfl, rfl, rfl⟩

end Narrowed

theorem checkProgram_refines_bases_narrowed :
    ¬narrowed.hasInter ∧ ∃ bound report p,
      (∀ depth, bound ≤ depth →
        (Pass.run ⟨Config.default, depth⟩ narrowed).run.run Pass.empty = (.ok report, p)) ∧
      report.diagnostics = [] ∧
      p.Answers Config.default (report.typeOf "Item") (report.typeOf "Base") true := by
  have hni : ¬narrowed.hasInter := by decide
  obtain ⟨bound, outcome, p, hrun, hok, hall⟩ :=
    checkProgram_refines_bases Config.default narrowed hni
  obtain ⟨report, rfl⟩ := hok (by decide)
  obtain ⟨report', p', hrun', hnil, htypes⟩ := Narrowed.run_narrowed bound
  cases (hrun (bound + 2) (by omega)).symm.trans hrun'
  refine ⟨hni, bound, report, p, hrun, hnil, ?_⟩
  have hitem : report.typeOf "Item" = .object Narrowed.itemFields none (some "Item") := by
    rw [Pass.Report.typeOf, htypes]
    rfl
  have hbase : report.typeOf "Base" = .object Narrowed.baseFields none (some "Base") := by
    rw [Pass.Report.typeOf, htypes]
    rfl
  obtain ⟨fs, own, htype, hiff⟩ := hall report rfl hnil "Item"
    [⟨"id", .prim .string, false, none⟩] none [] "Base" none [] none (by simp [narrowed])
  cases hitem.symm.trans htype
  refine (hiff true).mpr ⟨fun _ => ⟨by simp [hbase], ?_⟩, fun _ => rfl⟩
  intro gs wanted m hobject
  cases hbase.symm.trans hobject
  exact ⟨by simp [Narrowed.itemFields, Narrowed.baseFields, Field.find?], by simp, by simp⟩

namespace Unchecked

def shape (ps : List (String × TypeExpr)) : TypeExpr :=
  .object (ps.map fun p => ⟨p.1, p.2, false, none⟩) none none

/-- A property of the base may be missing in the interface. -/
def loosened : Program where
  declarations :=
    [.interface "B" [⟨"p", .prim .string, false, none⟩] none [] none,
      .interface "I" [⟨"p", .prim .string, true, none⟩] none [("B", none)] none]

/-- An intersection whose property is a number or anything, by whether one type fits another. -/
def swing (source target : String) : TypeExpr :=
  .inter [shape [("k", shape [("q", .named source none), ("s", .prim .number)])],
    shape [("k", shape [("q", .named target none), ("s", .prim .any)])]]

/-- Each property of the interface fits while the question about it is the first. -/
def swung : Program where
  declarations :=
    [.typeAlias "O" (shape [("k", shape [("s", .prim .string)])]) none,
      .typeAlias "X" (swing "I" "B") none,
      .typeAlias "Z" (swing "X" "O") none,
      .interface "B" [⟨"p", .named "O" none, false, none⟩, ⟨"z", .named "O" none, false, none⟩] none
        [] none,
      .interface "I" [⟨"p", .named "X" none, false, none⟩, ⟨"z", .named "Z" none, false, none⟩] none
        [("B", none)] none]

/-- The program is found free of problems, and `I` does not fit `B` then. -/
def escapes (config : Config) (program : Program) : Bool :=
  match (Pass.run ⟨config, 20⟩ program).run.run Pass.empty with
  | (.ok report, p) =>
    let answer :=
      (Setting.ask ⟨config, 20⟩ (report.typeOf "I") (report.typeOf "B")).run.run p.checks
    report.diagnostics.isEmpty && answer.1.toOption.any (·.isSome)
  | _ => false

/-- An interface may make a property of its base optional, and no problem is found. With
intersections it need not fit its base even if all its properties were found to fit. -/
theorem interface_escapes_base :
    escapes Config.default loosened ∧
      escapes { Config.default with memoize := .bool false } swung := by
  decide +kernel

end Unchecked
end ShapeCheck
