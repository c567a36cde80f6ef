import ShapeCheck.Proofs.Env.Recipe
import ShapeCheck.Proofs.Env.Settled

/-! Environments grow: recipes start and end, names turn out to be circular, and nothing is taken
back. A naming that agrees with an environment agrees with every earlier one, and read with it the
problems and duties on record, with those that waiting recipes will bring, come to the same. -/

namespace ShapeCheck
variable {φ : Features}

def Progress.isWaiting : Progress → Bool
  | .waiting _ => true
  | _ => false

/-- How a cell can get on. -/
def Progress.Leads : Progress → Progress → Prop
  | .waiting recipe, p => p.isWaiting → p = .waiting recipe
  | .underWay, p => p.isWaiting = false
  | .settled t, p => p = .settled t

theorem Progress.Leads.refl (p : Progress) : p.Leads p := by
  cases p with
  | waiting recipe => exact fun _ => rfl
  | underWay => rfl
  | settled t => rfl

theorem Progress.Leads.trans {p q r : Progress} (h : p.Leads q) (h' : q.Leads r) : p.Leads r := by
  cases p with
  | waiting recipe =>
    intro hr
    cases q with
    | waiting recipe' =>
      cases h rfl
      exact h' hr
    | underWay => simp [Progress.Leads, hr] at h'
    | settled t => cases h'; cases hr
  | underWay =>
    cases q with
    | waiting recipe => cases h
    | underWay => exact h'
    | settled t => cases h'; rfl
  | settled t => cases h; exact h'

structure Cell.Grows (c c' : Cell) : Prop where
  name : c'.name = c.name
  progress : c.progress.Leads c'.progress
  circular : c.circular → c'.circular
  final : c.progress.isSettled → c'.circular = c.circular

namespace Cell.Grows

theorem refl (c : Cell) : c.Grows c := ⟨rfl, .refl _, id, fun _ => rfl⟩

theorem settled {c c' : Cell} {t : Ty} (h : c.Grows c') (hp : c.progress = .settled t) :
    c'.progress = .settled t := by
  simpa only [Progress.Leads, hp] using h.progress

theorem trans {a b c : Cell} (h : a.Grows b) (h' : b.Grows c) : a.Grows c where
  name := h'.name.trans h.name
  progress := h.progress.trans h'.progress
  circular := h'.circular ∘ h.circular
  final hs := by
    cases hp : a.progress with
    | settled t =>
      have hb : b.progress.isSettled := by rw [h.settled hp]; rfl
      exact (h'.final hb).trans (h.final hs)
    | _ => simp [hp, Progress.isSettled] at hs

end Cell.Grows

namespace Env
variable {env env' env'' : Env} {name : String} {c : Cell} {f : Cell → Cell}

structure Grows (env env' : Env) : Prop where
  cells : List.Forall₂ Cell.Grows env.cells env'.cells
  diagnostics : env.diagnostics <+: env'.diagnostics

namespace Grows

theorem of_cells (hc : env'.cells = env.cells) (hd : env.diagnostics <+: env'.diagnostics) :
    env.Grows env' :=
  ⟨by rw [hc]; exact List.forall₂_same.mpr fun c _ => .refl c, hd⟩

theorem refl (env : Env) : env.Grows env := of_cells rfl List.prefix_rfl

theorem trans (h : env.Grows env') (h' : env'.Grows env'') : env.Grows env'' := by
  refine ⟨?_, h.diagnostics.trans h'.diagnostics⟩
  obtain ⟨hl, hg⟩ := List.forall₂_iff_get.mp h.cells
  obtain ⟨hl', hg'⟩ := List.forall₂_iff_get.mp h'.cells
  refine List.forall₂_iff_get.mpr ⟨hl.trans hl', fun i hi hi'' => ?_⟩
  exact (hg i hi (hl ▸ hi)).trans (hg' i (hl ▸ hi) hi'')

theorem names (h : env.Grows env') : env'.names = env.names := by
  have hcells := h.cells
  unfold Env.names
  generalize env.cells = cs, env'.cells = cs' at hcells
  induction hcells with
  | nil => rfl
  | cons hc _ ih => rw [List.map_cons, List.map_cons, hc.name, ih]

theorem mem (h : env.Grows env') (hc : c ∈ env.cells) : ∃ c' ∈ env'.cells, c.Grows c' := by
  have hcells := h.cells
  generalize env.cells = cs, env'.cells = cs' at hc hcells
  induction hcells with
  | nil => cases hc
  | @cons a b _ _ hab _ ih =>
    rcases List.mem_cons.mp hc with rfl | hc
    · exact ⟨b, List.mem_cons_self, hab⟩
    · obtain ⟨c', hc', hg⟩ := ih hc
      exact ⟨c', List.mem_cons_of_mem b hc', hg⟩

/-- The cell of a name, before and after. -/
theorem find? (h : env.Grows env') (name : String) :
    env.find? name = none ∧ env'.find? name = none ∨
      ∃ c c', env.find? name = some c ∧ env'.find? name = some c' ∧ c.Grows c' := by
  have hcells := h.cells
  unfold Env.find?
  generalize env.cells = cs, env'.cells = cs' at hcells
  induction hcells with
  | nil => exact .inl ⟨rfl, rfl⟩
  | @cons a b _ _ hab _ ih =>
    by_cases hn : a.name = name
    · exact .inr ⟨a, b, by simp [hn], by simp [hab.name, hn], hab⟩
    · simpa [hn, hab.name] using ih

theorem isDefined (h : env.Grows env') (name : String) :
    env'.isDefined name = env.isDefined name := by
  rcases h.find? name with ⟨hf, hf'⟩ | ⟨c, c', hf, hf', _⟩ <;> simp [Env.isDefined, hf, hf']

theorem isCircular (h : env.Grows env') (hc : env.isCircular name) : env'.isCircular name := by
  rcases h.find? name with ⟨hf, _⟩ | ⟨c, c', hf, hf', hg⟩
  · simp [Env.isCircular, hf] at hc
  · simp only [Env.isCircular, hf, hf'] at hc ⊢
    exact hg.circular hc

end Grows

theorem find?_eq_some (h : env.find? name = some c) : c ∈ env.cells ∧ c.name = name :=
  ⟨List.mem_of_find?_eq_some h, by simpa using List.find?_some h⟩

/-- Where no name has two cells, the cell of a name is found. -/
theorem find?_of_mem (ha : env.names.Nodup) (hc : c ∈ env.cells) : env.find? c.name = some c := by
  unfold find?
  unfold names at ha
  generalize env.cells = cells at hc ha
  induction cells with
  | nil => cases hc
  | cons a cells ih =>
    obtain ⟨hn, ha⟩ := List.nodup_cons.mp ha
    rcases List.mem_cons.mp hc with rfl | hc
    · simp
    · have hne : a.name ≠ c.name := fun he => hn (List.mem_map.mpr ⟨c, hc, he.symm⟩)
      simpa [hne] using ih hc ha

theorem eq_of_name_eq {b : Cell} (ha : env.names.Nodup) (hb : b ∈ env.cells) (hc : c ∈ env.cells)
    (hn : b.name = c.name) : b = c := by
  have hfind := find?_of_mem ha hb
  rw [hn, find?_of_mem ha hc] at hfind
  exact (Option.some.inj hfind).symm

theorem isDefined_of_mem (hc : c ∈ env.cells) : env.isDefined c.name :=
  List.find?_isSome.mpr ⟨c, hc, by simp⟩

theorem isCircular_of_mem (ha : env.names.Nodup) (hc : c ∈ env.cells) :
    env.isCircular c.name = c.circular := by
  simp only [isCircular, find?_of_mem ha hc]

theorem mem_update (h : c ∈ (env.update name f).cells) :
    (∃ b ∈ env.cells, b.name = name ∧ c = f b) ∨ c ∈ env.cells ∧ c.name ≠ name := by
  obtain ⟨b, hb, rfl⟩ := List.mem_map.mp h
  by_cases hn : b.name = name
  · exact .inl ⟨b, hb, hn, by simp [hn]⟩
  · exact .inr (by simpa [hn] using hb)

theorem mem_update_self (hc : c ∈ env.cells) (hn : c.name = name) :
    f c ∈ (env.update name f).cells :=
  List.mem_map.mpr ⟨c, hc, by simp [hn]⟩

theorem mem_update_other (hc : c ∈ env.cells) (hn : c.name ≠ name) :
    c ∈ (env.update name f).cells :=
  List.mem_map.mpr ⟨c, hc, by simp [hn]⟩

theorem grows_update (hf : ∀ c ∈ env.cells, c.name = name → c.Grows (f c)) :
    env.Grows (env.update name f) := by
  refine ⟨List.forall₂_map_right_iff.mpr (List.forall₂_same.mpr fun c hc => ?_),
    List.prefix_rfl⟩
  by_cases hn : c.name = name
  · simpa [hn] using hf c hc hn
  · simpa [hn] using .refl c

theorem grows_report (d : Diagnostic) (env : Env) : env.Grows (env.report d) :=
  .of_cells rfl (List.prefix_append _ _)

theorem grows_postpone (duty : Obligation) (env : Env) : env.Grows (env.postpone duty) :=
  .of_cells rfl List.prefix_rfl

theorem grows_reportMissing (name : String) (span : Option Span) (env : Env) :
    env.Grows (reportMissing name span env) := by
  unfold reportMissing
  split
  · exact .refl env
  · exact .of_cells rfl (List.prefix_append _ _)

/-- The number of recipes that have not started. -/
def waiting (env : Env) : Nat := env.cells.countP (·.progress.isWaiting)

theorem Grows.waiting_le (h : env.Grows env') : env'.waiting ≤ env.waiting := by
  have hcells := h.cells
  unfold waiting
  generalize env.cells = cs, env'.cells = cs' at hcells
  induction hcells with
  | nil => exact Nat.le_refl _
  | @cons a b _ _ hab _ ih =>
    have hle : b.progress.isWaiting → a.progress.isWaiting := by
      intro hb
      have hlead := hab.progress
      cases hp : a.progress with
      | waiting recipe => rfl
      | underWay => simp [hp, Progress.Leads, hb] at hlead
      | settled t => simp [hab.settled hp, Progress.isWaiting] at hb
    simp only [List.countP_cons]
    by_cases hb : b.progress.isWaiting
    · simp only [hb, hle hb, if_true]
      omega
    · simp only [hb, Bool.false_eq_true, if_false]
      omega

theorem waiting_le_length (env : Env) : env.waiting ≤ env.cells.length := List.countP_le_length

end Env

/-- The naming knows the names of the environment and agrees with what they are bound to so far. -/
structure Naming.Completes (φ : Features) (N : Naming) (env : Env) : Prop
    extends N.Fair φ env.isDefined where
  settled : ∀ c ∈ env.cells, ∀ t, c.progress = .settled t → N.bound c.name = t
  circular : ∀ c ∈ env.cells, c.circular → N.bound c.name = Ty.never

theorem Naming.Completes.of_grows {N : Naming} {env env' : Env} (hg : env.Grows env')
    (h : N.Completes φ env') : N.Completes φ env where
  known n := (h.known n).trans (hg.isDefined n)
  named n hn := h.named n ((hg.isDefined n).trans hn)
  firm := h.firm
  missing n hn := h.missing n ((hg.isDefined n).trans hn)
  settled c hc t hp := by
    obtain ⟨c', hc', hcg⟩ := hg.mem hc
    exact hcg.name ▸ h.settled c' hc' t (hcg.settled hp)
  circular c hc hcirc := by
    obtain ⟨c', hc', hcg⟩ := hg.mem hc
    exact hcg.name ▸ h.circular c' hc' (hcg.circular hcirc)

/-- What the recipe of a cell will leave behind. -/
def Cell.due (N : Naming) (c : Cell) : List Deed :=
  match c.progress with
  | .waiting recipe => (recipe.under N).left
  | _ => []

namespace Env
variable {N : Naming} {env : Env} {name : String}

/-- The problems that recipes found and the duties they left, with those that are still to come. -/
def tally (N : Naming) (env : Env) : List Deed :=
  (env.diagnostics.filter (!·.kind.ofLookup)).map .say ++ env.duties.map .owe ++
    env.cells.flatMap (·.due N)

theorem tally_report (N : Naming) (env : Env) {d : Diagnostic} (h : d.kind.ofLookup = false) :
    (env.report d).tally N |>.Perm (env.tally N ++ [.say d]) := by
  simp only [tally, report, List.filter_append, h, List.filter_cons, Bool.not_false, if_true,
    List.filter_nil, List.map_append, List.map_cons, List.map_nil, List.append_assoc]
  exact List.Perm.append_left _ (List.perm_append_comm.trans (by simp))

theorem tally_report_lookup (N : Naming) (env : Env) {d : Diagnostic} (h : d.kind.ofLookup) :
    (env.report d).tally N = env.tally N := by
  simp [tally, report, h]

theorem tally_reportMissing (name : String) (span : Option Span) :
    (reportMissing name span env).tally N = env.tally N := by
  unfold reportMissing
  split
  · rfl
  · exact tally_report_lookup N _ rfl

theorem tally_postpone (N : Naming) (env : Env) (duty : Obligation) :
    (env.postpone duty).tally N |>.Perm (env.tally N ++ [.owe duty]) := by
  simp only [tally, postpone, List.map_append, List.map_cons, List.map_nil, List.append_assoc]
  exact List.Perm.append_left _ (List.Perm.append_left _ List.perm_append_comm)

theorem tally_update {f : Cell → Cell}
    (hf : ∀ c ∈ env.cells, c.name = name → (f c).due N = c.due N) :
    (env.update name f).tally N = env.tally N := by
  simp only [tally, update, List.flatMap_map]
  refine congrArg _ (List.flatMap_congr fun c hc => ?_)
  by_cases hn : c.name = name
  · simp [hn, hf c hc hn]
  · simp [hn]

/-- What a recipe that starts will leave behind is counted no more. -/
theorem tally_update_waiting {f : Cell → Cell} {c : Cell} (ha : env.names.Nodup)
    (hc : c ∈ env.cells) (hf : ∀ c, (f c).due N = []) :
    (env.tally N).Perm ((env.update c.name f).tally N ++ c.due N) := by
  have hcells : (env.cells.flatMap (·.due N)).Perm
      ((env.update c.name f).cells.flatMap (·.due N) ++ c.due N) := by
    unfold update
    unfold names at ha
    dsimp only
    generalize env.cells = cells at hc ha
    induction cells with
    | nil => cases hc
    | cons a cells ih =>
      obtain ⟨hn, ha⟩ := List.nodup_cons.mp ha
      simp only [List.map_cons, List.flatMap_cons]
      rcases List.mem_cons.mp hc with rfl | hc
      · have hrest : cells.map (fun b => if b.name = c.name then f b else b) = cells := by
          refine (List.map_congr_left fun b hb => ?_).trans (List.map_id _)
          have hne : b.name ≠ c.name := fun he => hn (List.mem_map.mpr ⟨b, hb, he⟩)
          simp [hne]
        simp only [hrest, if_true, hf, List.nil_append]
        exact List.perm_append_comm
      · have hne : a.name ≠ c.name := fun he => hn (List.mem_map.mpr ⟨c, hc, he.symm⟩)
        simp only [hne, if_false, List.append_assoc]
        exact List.Perm.append_left _ (ih hc ha)
  simp only [tally, update, List.append_assoc] at hcells ⊢
  exact List.Perm.append_left _ (List.Perm.append_left _ hcells)

end Env
end ShapeCheck
