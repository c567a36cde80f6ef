import ShapeCheck.Proofs.Pass.Cycles

/-! The order of declarations. Each type name is declared once and needs itself nowhere at once, so
what it is bound to follows from the declarations alone, however they are arranged. -/

namespace ShapeCheck

/-- A recipe comes to the same if the names that it asks for are bound alike. -/
theorem Recipe.under_congr {α : Type} {N N' : Naming} (hk : ∀ n, N'.known n = N.known n)
    (r : Recipe α) (hb : ∀ n ∈ (r.under N).asked, N'.bound n = N.bound n) :
    r.under N' = r.under N := by
  induction r with
  | done result => rfl
  | resolve name span next ih =>
    obtain ⟨hname, hrest⟩ := List.forall_mem_cons.mp hb
    simp only [under, hname, ih _ hrest]
  | unwrap type next ih =>
    obtain ⟨htype, hrest⟩ := List.forall_mem_append.mp hb
    have hlook : N'.look type = N.look type := by
      cases type with
      | ref n => exact htype n (by simp [Naming.sought])
      | _ => rfl
    simp only [under, hlook, ih _ hrest]
  | isDefined name next ih =>
    simp only [under, hk] at hb ⊢
    exact ih _ hb
  | report problem next ih => simp only [under, ih hb]
  | postpone duty next ih => simp only [under, ih hb]

namespace Program
variable {p q : Program} {n : String}

/-- No type name is declared twice. -/
def DeclaresOnce (p : Program) : Prop := (p.declarations.filterMap Decl.typeName).Nodup

instance : Decidable p.DeclaresOnce := inferInstanceAs (Decidable (List.Nodup _))

theorem DeclaresOnce.declaration?_eq_some_iff (h : p.DeclaresOnce) {d : Decl} :
    p.declaration? n = some d ↔ d ∈ p.declarations ∧ d.typeName = some n := by
  refine ⟨declaration?_eq_some, fun ⟨hd, hn⟩ => ?_⟩
  have hfound : (p.declaration? n).isSome := List.find?_isSome.mpr ⟨d, hd, by simpa using hn⟩
  obtain ⟨b, hb⟩ := Option.isSome_iff_exists.mp hfound
  obtain ⟨hmem, hname⟩ := declaration?_eq_some hb
  by_contra hne
  have hbd : b ≠ d := fun he => hne (he ▸ hb)
  have happart := List.pairwise_filterMap.mp h
  have : Std.Symm fun a b : Decl =>
      ∀ m, a.typeName = some m → ∀ m', b.typeName = some m' → m ≠ m' :=
    ⟨fun a b hab m hm m' hm' he => hab m' hm' m hm he.symm⟩
  exact happart.forall hmem hd hbd n hname n hn rfl

theorem DeclaresOnce.declaration?_perm (h : p.DeclaresOnce)
    (hperm : p.declarations.Perm q.declarations) : q.declaration? n = p.declaration? n := by
  have hq : q.DeclaresOnce := (hperm.filterMap _).nodup h
  refine Option.ext fun d => ?_
  rw [h.declaration?_eq_some_iff, hq.declaration?_eq_some_iff, hperm.mem_iff]

end Program

namespace Pass.Concludes
variable {φ φ' : Features} {program program' : Program} {h : program.Within φ}
  {h' : program'.Within φ'} {config : Config} {report report' : Report} {p p' : Pass} {n : String}

theorem isCircular_eq_false (hc : Concludes h config report p)
    (hacyclic : ∀ n, ¬Relation.TransGen program.Edge n n) (n : String) :
    p.env.isCircular n = false := by
  obtain ⟨loops, -, -, hexact⟩ := hc.sound.idle.kept.loops
  rw [← Bool.not_eq_true, hexact]
  intro hn
  obtain ⟨l, -, rfl⟩ := List.mem_map.mp hn
  obtain ⟨m, hm⟩ := exists_loop_iff.mp ⟨l.name, l.between, l.walk⟩
  exact hacyclic m hm

/-- Two checks bind a name to the same type if they have the same declarations of type names and
none needs itself at once. -/
theorem bound_eq (hc : Concludes h config report p) (hc' : Concludes h' config report' p')
    (hsame : ∀ n, program'.declaration? n = program.declaration? n)
    (hacyclic : ∀ n, ¬Relation.TransGen program.Edge n n) (n : String) :
    p'.env.naming.bound n = p.env.naming.bound n := by
  have hdeclares : ∀ n, program'.declares n = program.declares n := fun n => by
    rw [Program.declares, Program.declares, hsame]
  have hedge : program'.Edge = program.Edge := by
    funext u v
    rw [Program.Edge, Program.Edge, hdeclares, hsame]
  have hacyclic' : ∀ n, ¬Relation.TransGen program'.Edge n n := by rwa [hedge]
  have hknown : ∀ n, p'.env.naming.known n = p.env.naming.known n := fun n =>
    ((hc'.sound.idle.kept.known n).trans (hdeclares n)).trans (hc.sound.idle.kept.known n).symm
  by_cases hn : program.declares n
  · -- The names that a declaration needs come before its own, since no way round leads back.
    have hends : Acc (p.env.Onward (program.plan h)) n := by
      obtain ⟨c, hm, rfl⟩ := hc.cell_of_declares hn
      obtain ⟨t, -, hs⟩ := hc.solved hm
      exact hs.ends
    induction hends with
    | intro n _ ih =>
      obtain ⟨d, hd⟩ := Option.isSome_iff_exists.mp hn
      obtain ⟨t, ht, hbound⟩ := hc.result_recipe hd
      obtain ⟨t', ht', hbound'⟩ := hc'.result_recipe ((hsame n).trans hd)
      have hasked : ∀ m ∈ (d.recipe.under p.env.naming).asked,
          p'.env.naming.bound m = p.env.naming.bound m := by
        intro m hm
        by_cases hdm : program.declares m
        · refine ih m ⟨⟨hdm, d, hd, ?_⟩, hc.isCircular_eq_false hacyclic m⟩ hdm
          exact d.asksOnly_recipe hc.sound.idle.kept.completes.toFair m hm
            ((hc.sound.idle.kept.known m).trans hdm)
        · rw [Bool.not_eq_true] at hdm
          rw [hc.bound_of_not_declares hdm,
            hc'.bound_of_not_declares ((hdeclares m).trans hdm)]
      rw [Recipe.under_congr hknown d.recipe hasked, ht] at ht'
      cases ht'
      rw [hbound (hc.isCircular_eq_false hacyclic n), hbound' (hc'.isCircular_eq_false hacyclic' n)]
  · rw [Bool.not_eq_true] at hn
    rw [hc.bound_of_not_declares hn, hc'.bound_of_not_declares ((hdeclares n).trans hn)]

end Pass.Concludes

/-- The types that names are declared for do not depend on the order of the declarations. If no
type name is declared twice and none needs itself at once, then the declarations may come in any
order, those of functions and values and the statements too, and each declared name is noted with
the same type, down to the names that its parts are displayed by. -/
theorem checkProgram_order_irrelevant (config : Config) {program program' : Program}
    (hperm : program.declarations.Perm program'.declarations) (honce : program.DeclaresOnce)
    (hacyclic : ∀ n, ¬Relation.TransGen program.Edge n n) :
    ∃ bound, ∀ depth, bound ≤ depth → ∀ report report',
      checkProgram ⟨config, depth⟩ program = .ok report →
      checkProgram ⟨config, depth⟩ program' = .ok report' → ∀ n,
        report'.aliases.lookup n = report.aliases.lookup n ∧
          (report.aliases.lookup n).isSome = program.declares n := by
  obtain ⟨bound, outcome, p, hrun, hr⟩ := Pass.settles_run config program.within_features
  obtain ⟨bound', outcome', p', hrun', hr'⟩ := Pass.settles_run config program'.within_features
  refine ⟨max bound bound', fun depth hdepth report report' hreport hreport' n => ?_⟩
  rw [checkProgram, hrun depth (by omega)] at hreport
  rw [checkProgram, hrun' depth (by omega)] at hreport'
  have hc : Pass.Concludes program.within_features config report p := by
    cases hreport
    exact hr
  have hc' : Pass.Concludes program'.within_features config report' p' := by
    cases hreport'
    exact hr'
  have hsame := fun n => honce.declaration?_perm (n := n) hperm
  have hdeclares : program'.declares n = program.declares n := by
    rw [Program.declares, Program.declares, hsame]
  rw [hc.lookup_eq, hc'.lookup_eq, hdeclares, hc.bound_eq hc' hsame hacyclic]
  refine ⟨rfl, ?_⟩
  cases program.declares n <;> rfl

namespace Ordered

def base : Decl := .interface "Base" [⟨"id", .prim .number, false, none⟩] none [] none

def item : Decl :=
  .interface "Item" [⟨"next", .named "Items" none, true, none⟩] none [("Base", none)] none

def items : Decl := .typeAlias "Items" (.array (.named "Item" none)) none

def all : Decl := .value "all" .constBinding (some (.named "Items" none)) none none

/-- A list type that its items lead back to, each name before those that it needs. -/
def program : Program := ⟨[all, items, item, base]⟩

/-- How many names a declaration waits for. -/
def rank (name : String) : Nat := if name = "Items" then 2 else if name = "Item" then 1 else 0

theorem rank_lt_of_edge {u v : String} (h : program.Edge u v) : rank v < rank u := by
  obtain ⟨-, d, hd, hv⟩ := h
  obtain ⟨hm, hn⟩ := Program.declaration?_eq_some hd
  simp only [program, List.mem_cons, List.not_mem_nil, or_false] at hm
  rcases hm with rfl | rfl | rfl | rfl
  · cases hn
  · cases hn
    cases List.mem_singleton.mp hv
    decide
  · cases hn
    cases List.mem_singleton.mp hv
    decide
  · cases hv

theorem acyclic (n : String) : ¬Relation.TransGen program.Edge n n := by
  intro hn
  have hlt : ∀ {v}, Relation.TransGen program.Edge n v → rank v < rank n := by
    intro v hv
    induction hv with
    | single hedge => exact rank_lt_of_edge hedge
    | tail _ hedge ih => exact (rank_lt_of_edge hedge).trans ih
  exact (hlt hn).false

theorem checkProgram_order_irrelevant_reverse :
    program.declarations.Perm program.declarations.reverse ∧ program.DeclaresOnce ∧
      ∃ bound report report', ∀ depth, bound ≤ depth →
        checkProgram ⟨Config.default, depth⟩ program = .ok report ∧
        checkProgram ⟨Config.default, depth⟩ ⟨program.declarations.reverse⟩ = .ok report' ∧
        report'.aliases.lookup "Items" = report.aliases.lookup "Items" ∧
        (report.aliases.lookup "Items").isSome := by
  have hperm : program.declarations.Perm program.declarations.reverse :=
    (List.reverse_perm _).symm
  have honce : program.DeclaresOnce := by decide
  obtain ⟨b, hb⟩ := @checkProgram_order_irrelevant Config.default program
    ⟨program.declarations.reverse⟩ hperm honce acyclic
  obtain ⟨b₁, report, hreport⟩ := @Pass.exists_report Config.default program
    (by decide) (by decide)
  obtain ⟨b₂, report', hreport'⟩ := @Pass.exists_report Config.default
    ⟨program.declarations.reverse⟩ (by decide) (by decide)
  refine ⟨hperm, honce, max b (max b₁ b₂), report, report', fun depth hdepth => ?_⟩
  have h₁ := hreport depth (by omega)
  have h₂ := hreport' depth (by omega)
  obtain ⟨hsame, hsome⟩ := hb depth (by omega) report report' h₁ h₂ "Items"
  exact ⟨h₁, h₂, hsame, hsome.trans (by decide)⟩

end Ordered
end ShapeCheck
