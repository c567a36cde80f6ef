import ShapeCheck.Proofs.Pass.Final

/-! No property escapes the index of its object, although some of them are checked when the object
is built and others when all names are bound. -/

namespace ShapeCheck
variable {φ : Features} {N : Naming} {R : Reading}

/-- The objects with an index that are built for the declaration of a type. -/
def Decl.sites (N : Naming) : Decl → List Site
  | .typeAlias name body _ => body.sites N (some name)
  | .interface name properties index bases span =>
    TypeExpr.sitesOfProperties N [] properties ++
      index.toList.flatMap (·.value.sites N none) ++
        (Build.interfaceSite? N name properties index bases span).toList
  | _ => []

/-- The objects with an index that are built for a program: for the types it declares, for its
functions, and for the declared types of its values. -/
def Program.sites (N : Naming) (p : Program) : List Site :=
  p.firsts.flatMap (·.sites N) ++
    (p.declarations.filterMap Decl.hoisted).flatMap (·.sites N none) ++
      (p.declarations.filterMap Decl.annotation).flatMap (·.sites N none)

theorem Program.mem_sites {p : Program} {d : Decl} {o : Site} (hd : d ∈ p.firsts)
    (h : o ∈ d.sites N) : o ∈ p.sites N :=
  List.mem_append_left _ (List.mem_append_left _ (List.mem_flatMap.mpr ⟨d, hd, h⟩))

theorem Decl.parts_hoisted {d : Decl} {e : TypeExpr} (h : d.hoisted = some e) :
    d.types = e.parts := by
  cases d with
  | func name signatures receiver span =>
    cases h
    rfl
  | _ => cases h

theorem Decl.parts_annotation {d : Decl} {e : TypeExpr} (h : d.annotation = some e) :
    d.types = e.parts := by
  cases d with
  | value name binding declared initializer span =>
    have hd : declared = some e := h
    simp [Decl.types, hd]
  | _ => cases h

theorem Decl.brings_recipe {d : Decl} {defined : String → Bool} (hN : N.Fair φ defined)
    (h : d.Within φ) (hn : d.typeName.isSome) : d.recipe.Brings φ N R (d.sites N) := by
  cases d with
  | typeAlias name body span => exact Build.brings_type hN true (some name) body h.types
  | interface name properties index bases span =>
    obtain ⟨hproperties, hvalue⟩ := List.forall_mem_append.mp h.types
    refine Build.brings_ofInterface hN name properties index bases span hproperties ?_ ?_
    · intro hsome
      obtain ⟨i, rfl⟩ := Option.isSome_iff_exists.mp hsome
      exact h.index rfl
    · rintro i rfl
      simpa using hvalue
  | _ => cases hn

/-- The objects that several recipes build. -/
theorem brings_flatMap {α β : Type} (xs : List β) (r : β → Recipe α) (os : β → List Site)
    (h : ∀ x ∈ xs, (r x).Brings φ N R (os x))
    (hok : ∀ x ∈ xs, ∃ a, ((r x).under N).result = .ok a) :
    (xs.flatMap fun x => ((r x).under N).left).flatMap (Deed.violations R) =
        (xs.flatMap os).flatMap (Site.reports R) ∧
      ∀ o ∈ xs.flatMap os, o.Within φ := by
  induction xs with
  | nil => exact ⟨rfl, by simp⟩
  | cons x xs ih =>
    obtain ⟨hx, hxs⟩ := List.forall_mem_cons.mp h
    obtain ⟨⟨a, ha⟩, hoks⟩ := List.forall_mem_cons.mp hok
    obtain ⟨hv, ho⟩ := hx a ha
    obtain ⟨hvs, hos⟩ := ih hxs hoks
    simp only [List.flatMap_cons, List.flatMap_append, hv, hvs, true_and]
    exact List.forall_mem_append.mpr ⟨ho, hos⟩

theorem flatMap_violations_say (ds : List Diagnostic) :
    (ds.map Deed.say).flatMap (Deed.violations R) =
      Diagnostic.ofKind .indexSignatureViolation ds := by
  induction ds with
  | nil => rfl
  | cons d ds ih =>
    simp only [List.map_cons, List.flatMap_cons, ih, Deed.violations, Diagnostic.ofKind,
      List.filter_cons]
    split <;> simp_all

theorem ofKind_late (duties : List Obligation) :
    Diagnostic.ofKind .indexSignatureViolation (duties.flatMap (·.late R)) =
      duties.flatMap (·.late R) := by
  refine List.filter_eq_self.mpr fun d hd => ?_
  obtain ⟨duty, -, hd⟩ := List.mem_flatMap.mp hd
  cases duty with
  | index fs i name span =>
    obtain ⟨f, -, rfl⟩ := List.mem_map.mp hd
    rfl
  | refinement => cases hd

namespace Pass.Concludes
variable {program : Program} {h : program.Within φ} {config : Config} {report : Report} {p : Pass}

/-- What the recipes leave behind brings up the problems with the indexes of all objects. -/
theorem brings (hc : Concludes h config report p) :
    (program.leaves p.env.naming).flatMap (Deed.violations R) =
        (program.sites p.env.naming).flatMap (Site.reports R) ∧
      ∀ o ∈ program.sites p.env.naming, o.Within φ := by
  have hN := hc.sound.idle.kept.completes
  have hfirsts := brings_flatMap (R := R) program.firsts Decl.recipe (Decl.sites p.env.naming)
    (fun d hd => by
      obtain ⟨n, hn, -⟩ := Decl.typeName_of_mem_firsts hd
      have hm := (Program.declaration?_eq_some (Program.mem_firsts_iff.mp ⟨hd, hn⟩)).1
      exact Decl.brings_recipe hN.toFair (h.declaration d hm) (by simp [hn]))
    fun d hd => by
      obtain ⟨n, hn, -⟩ := Decl.typeName_of_mem_firsts hd
      obtain ⟨t, ht, -⟩ := hc.result_recipe (Program.mem_firsts_iff.mp ⟨hd, hn⟩)
      exact ⟨t, ht⟩
  have hhoisted := brings_flatMap (R := R) (program.declarations.filterMap Decl.hoisted)
    (Build.type false none) (TypeExpr.sites p.env.naming none)
    (fun e he => by
      obtain ⟨d, hd, hde⟩ := List.mem_filterMap.mp he
      exact Build.brings_type hN.toFair false none e
        (Decl.parts_hoisted hde ▸ (h.declaration d hd).types))
    fun e he => hc.hoisted e he _ hN
  have hannotated := brings_flatMap (R := R) (program.declarations.filterMap Decl.annotation)
    (Build.type true none) (TypeExpr.sites p.env.naming none)
    (fun e he => by
      obtain ⟨d, hd, hde⟩ := List.mem_filterMap.mp he
      exact Build.brings_type hN.toFair true none e
        (Decl.parts_annotation hde ▸ (h.declaration d hd).types))
    fun e he => hc.annotated e he _ hN
  simp only [Program.leaves, Program.sites, TypeExpr.leaves, List.flatMap_append, hfirsts.1,
    hhoisted.1, hannotated.1, true_and]
  exact List.forall_mem_append.mpr
    ⟨List.forall_mem_append.mpr ⟨hfirsts.2, hhoisted.2⟩, hannotated.2⟩

theorem reports_ne_nil_iff (hc : Concludes h config report p) (hni : ¬φ.inter) {o : Site}
    (ho : o ∈ program.sites p.env.naming) :
    o.reports (p.env.naming.reading config.variance) ≠ [] ↔ ∃ f ∈ o.fields,
      ¬(p.env.naming.reading config.variance).Assignable f.type o.index.value :=
  Site.reports_ne_nil_iff hni ((hc.brings (R := p.env.naming.reading config.variance)).2 o ho)
    fun _ => Naming.look_of_not_ref _

theorem reportOf_of_mem (hc : Concludes h config report p) (hni : ¬φ.inter) {o : Site}
    (ho : o ∈ program.sites p.env.naming) {d : Diagnostic}
    (hd : d ∈ o.reports (p.env.naming.reading config.variance)) :
    ∃ f ∈ o.fields, o.ReportOf f d ∧
      ¬(p.env.naming.reading config.variance).Assignable f.type o.index.value :=
  Site.reportOf_of_mem_reports hni
    ((hc.brings (R := p.env.naming.reading config.variance)).2 o ho)
    (fun _ => Naming.look_of_not_ref _) hd

/-- The problems with indexes are those of the objects, and those of initializers. -/
theorem violations_perm (hc : Concludes h config report p) (hni : ¬φ.inter) :
    ∃ p₀ ms, ComesTo (fun _ => prepare program) empty () p₀ ∧
      Misfits config program.declarations p₀ ms ∧ (∀ m ∈ ms, m.Stands φ config.variance p.env) ∧
      (Diagnostic.ofKind .indexSignatureViolation report.diagnostics).Perm
        ((program.sites p.env.naming).flatMap
            (Site.reports (p.env.naming.reading config.variance)) ++
          Diagnostic.ofKind .indexSignatureViolation (ms.map Misfit.report)) := by
  obtain ⟨p₀, ms, hcomes, hms, hstand, hperm⟩ := hc.tally
  refine ⟨p₀, ms, hcomes, hms, hstand, ?_⟩
  obtain ⟨said, hplain, hperm⟩ := hperm hni
  generalize hR : p.env.naming.reading config.variance = R at hperm ⊢
  have hkind : Diagnostic.ofKind .indexSignatureViolation
      (p.env.diagnostics.filter (!·.kind.ofLookup)) =
        Diagnostic.ofKind .indexSignatureViolation p.env.diagnostics := by
    simp only [Diagnostic.ofKind, List.filter_filter]
    refine List.filter_congr fun d _ => ?_
    by_cases hd : d.kind = .indexSignatureViolation <;>
      simp [hd, Diagnostic.Kind.ofLookup]
  have howe : (p.env.duties.map Deed.owe).flatMap (Deed.violations R) =
      p.env.duties.flatMap (·.late R) := by
    simp [List.flatMap_map, Deed.violations]
  have hmisfits : (ms.map (Deed.say ·.report)).flatMap (Deed.violations R) =
      Diagnostic.ofKind .indexSignatureViolation (ms.map Misfit.report) := by
    rw [← flatMap_violations_say (R := R), List.map_map]
    rfl
  have hsaid : Diagnostic.ofKind .indexSignatureViolation said = [] := by
    refine List.filter_eq_nil_iff.mpr fun d hd hk => ?_
    have hplain := hplain d hd
    rw [show d.kind = .indexSignatureViolation by simpa using hk] at hplain
    cases hplain
  have hflat := hperm.flatMap_right (Deed.violations R)
  simp only [hc.tally_eq, List.flatMap_append, flatMap_violations_say, hkind, howe, hmisfits, hsaid,
    hc.brings.1, ofKind_late, List.append_nil] at hflat
  rw [hc.diagnostics]
  rw [← Multiset.coe_eq_coe] at hflat ⊢
  simp only [← Multiset.coe_add] at hflat ⊢
  rw [add_right_comm] at hflat
  exact add_right_cancel hflat

end Pass.Concludes

/-- Every object that is built with an index is checked whole. In a program without intersections
the problems with indexes that are reported are those of the objects, found when they are built or
later, beside those of initializers. An object has one exactly if the pass finds, with all names
bound, that a property is not assignable to the value type of the index, and each of its problems
names such a property. The others are misfits between the types of initializers and the declared
ones, as they are found when the declarations are gone through in order. -/
theorem checkProgram_checks_indexes (config : Config) (program : Program)
    (hni : ¬program.hasInter) :
    ∃ bound outcome p,
      (∀ depth, bound ≤ depth →
        (Pass.run ⟨config, depth⟩ program).run.run Pass.empty = (outcome, p)) ∧
      (program.wellFormed → ∃ report, outcome = .ok report) ∧
      ∀ report, outcome = .ok report → p.env.Settled ∧
        ∃ (reports : Site → List Diagnostic) (misfits : List Pass.Misfit),
          (Diagnostic.ofKind .indexSignatureViolation report.diagnostics).Perm
            ((program.sites p.env.naming).flatMap reports ++
              Diagnostic.ofKind .indexSignatureViolation (misfits.map (·.report))) ∧
          (∀ o ∈ program.sites p.env.naming,
            (reports o ≠ [] ↔
              ∃ f ∈ o.fields, p.Answers config f.type o.index.value false) ∧
            ∀ d ∈ reports o, ∃ f ∈ o.fields, o.ReportOf f d ∧
              p.Answers config f.type o.index.value false) ∧
          (∃ p₀, ComesTo (fun _ => Pass.prepare program) Pass.empty () p₀ ∧
            Pass.Misfits config program.declarations p₀ misfits) ∧
          ∀ m ∈ misfits, p.Answers config m.source m.target false := by
  obtain ⟨bound, outcome, p, hrun, hok, hr⟩ := Pass.exists_concludes config program hni
  refine ⟨bound, outcome, p, hrun, hok, fun report hreport => ?_⟩
  have hc := hr report hreport
  obtain ⟨p₀, misfits, hcomes, hmisfits, hstand, hperm⟩ := hc.violations_perm hni
  have hrejects : ∀ {s t : Ty}, Ty.Within program.features s → Ty.Within program.features t →
      (p.Answers config s t false ↔
        ¬(p.env.naming.reading config.variance).Assignable s t) := fun hs ht => by
    rw [hc.answers_iff hni hs ht]
    simp
  refine ⟨hc.settled, _, misfits, hperm, fun o ho => ?_, ⟨p₀, hcomes, hmisfits⟩, fun m hm => ?_⟩
  · have hwithin := (hc.brings (R := p.env.naming.reading config.variance)).2 o ho
    refine ⟨?_, fun d hd => ?_⟩
    · rw [hc.reports_ne_nil_iff hni ho]
      exact exists_congr fun f => and_congr_right fun hf =>
        (hrejects (hwithin.fields.type f hf) hwithin.value).symm
    · obtain ⟨f, hf, hreport, hmisfit⟩ := hc.reportOf_of_mem hni ho hd
      exact ⟨f, hf, hreport, (hrejects (hwithin.fields.type f hf) hwithin.value).mpr hmisfit⟩
  · have hm := hstand m hm
    exact (hrejects hm.source hm.target).mpr (hm.misfit hni _ hc.sound.idle.kept.completes)

namespace Tables

/-- A property that takes no argument and gives a number. -/
def call : TypeExpr := .func [⟨[], .prim .number, none⟩] none

def table (name : String) (property value : TypeExpr) : Decl :=
  .value name .constBinding (some (.object [⟨"entry", property, false, none⟩]
    (some ⟨.string, value, none⟩) none)) none none

/-- One property that is found not to fit when the object is built, one that waits and does not
fit, and one that waits and does. -/
def program : Program where
  declarations :=
    [table "rates" (.prim .number) (.prim .string), table "hooks" call (.prim .string),
      table "calls" call call]

def caller : Ty := .func [⟨[], .prim .number⟩] none

def site (property value : Ty) : Site :=
  ⟨[⟨"entry", property, false⟩], ⟨.string, value⟩, none, none⟩

theorem sites (N : Naming) : program.sites N =
    [site (.prim .number) (.prim .string), site caller (.prim .string), site caller caller] := rfl

theorem misfits_nil {config : Config} {ds : List Decl} {p : Pass} {ms : List Pass.Misfit}
    (hds : ∀ d ∈ ds, ∃ name property value, d = table name property value)
    (h : Pass.Misfits config ds p ms) : ms = [] := by
  induction h with
  | nil => rfl
  | @cons d ds p p' found ms hfinds _ _ ih =>
    obtain ⟨⟨name, property, value, rfl⟩, hrest⟩ := List.forall_mem_cons.mp hds
    cases found with
    | none => exact ih hrest
    | some m => cases hfinds m rfl

theorem not_assignable_string (N : Naming) (variance : Variance) :
    ¬(N.reading variance).Assignable (.prim .number) (.prim .string) ∧
      ¬(N.reading variance).Assignable caller (.prim .string) := by
  constructor
  · intro h
    cases Reading.assignable_iff.mp h with
    | equal hsame => simp [Ty.same, Naming.reading, Naming.look] at hsame
  · intro h
    cases Reading.assignable_iff.mp h with
    | equal hsame => simp [caller, Ty.same, Naming.reading, Naming.look] at hsame

theorem checkProgram_checks_indexes_tables : ¬program.hasInter ∧
    ∃ bound report p, ∃ reports : Site → List Diagnostic,
      (∀ depth, bound ≤ depth →
        (Pass.run ⟨Config.default, depth⟩ program).run.run Pass.empty = (.ok report, p)) ∧
      (Diagnostic.ofKind .indexSignatureViolation report.diagnostics).Perm
        (reports (site (.prim .number) (.prim .string)) ++ reports (site caller (.prim .string))) ∧
      reports (site (.prim .number) (.prim .string)) ≠ [] ∧
      reports (site caller (.prim .string)) ≠ [] ∧ reports (site caller caller) = [] := by
  have hni : ¬program.hasInter := by decide
  obtain ⟨bound, outcome, p, hrun, hok, hall⟩ :=
    checkProgram_checks_indexes Config.default program hni
  obtain ⟨report, rfl⟩ := hok (by decide)
  obtain ⟨-, reports, misfits, hperm, hsites, ⟨p₀, -, hmisfits⟩, -⟩ := hall report rfl
  -- the answers of the pass, by what is assignable
  obtain ⟨bound', outcome', p', hrun', -, hconcludes⟩ :=
    Pass.exists_concludes Config.default program hni
  obtain ⟨rfl, rfl⟩ := Prod.mk.inj
    ((hrun (max bound bound') (by omega)).symm.trans (hrun' _ (by omega)))
  have hc := hconcludes report rfl
  have hanswers : ∀ property value, site property value ∈ program.sites p.env.naming →
      (reports (site property value) ≠ [] ↔
        ¬(p.env.naming.reading Config.default.variance).Assignable property value) := by
    intro property value ho
    have hwithin := (hc.brings (R := p.env.naming.reading Config.default.variance)).2 _ ho
    have hiff : p.Answers Config.default property value false ↔ _ := hc.answers_iff hni
      (hwithin.fields.type _ (List.mem_singleton_self _)) hwithin.value
    rw [(hsites _ ho).1]
    simpa [site] using hiff
  have hstring := not_assignable_string p.env.naming Config.default.variance
  have hrates := (hanswers (.prim .number) (.prim .string) (by simp [sites])).mpr hstring.1
  have hhooks := (hanswers caller (.prim .string) (by simp [sites])).mpr hstring.2
  have hcalls : reports (site caller caller) = [] := by
    by_contra hne
    exact (hanswers caller caller (by simp [sites])).mp hne (Reading.assignable_refl _)
  rw [misfits_nil (by simp [program]) hmisfits, sites] at hperm
  refine ⟨hni, bound, report, p, reports, hrun, ?_, hrates, hhooks, hcalls⟩
  simpa [hcalls, Diagnostic.ofKind] using hperm

end Tables
end ShapeCheck
