import Mathlib.Algebra.GroupWithZero.Nat
import Mathlib.Algebra.Order.BigOperators.Group.List
import Mathlib.Algebra.Order.Group.Nat
import Mathlib.Data.List.Nodup
import Mathlib.Data.List.Perm.Subperm
import ShapeCheck.Ty.Parts

/-! Lists of fields: their names, and what their types cost together. -/

namespace ShapeCheck

/-- Fewer terms have a smaller sum. -/
theorem sum_map_le_of_subperm {α : Type} {as bs : List α} (h : as.Subperm bs) (cost : α → Nat) :
    (as.map cost).sum ≤ (bs.map cost).sum := by
  obtain ⟨cs, hp, hs⟩ := h
  rw [← (hp.map cost).sum_nat]
  exact (hs.map cost).sum_le_sum fun _ _ => Nat.zero_le _

namespace Field
variable {f g : Field Ty} {fs : List (Field Ty)} {n : String}

/-- No name stands twice. -/
def Apart (fs : List (Field Ty)) : Prop := (fs.map (·.name)).Nodup

theorem find?_eq_some (h : find? fs n = some f) : f ∈ fs ∧ f.name = n :=
  ⟨List.mem_of_find?_eq_some h, by simpa using List.find?_some h⟩

theorem find?_eq_none : find? fs n = none ↔ n ∉ fs.map (·.name) := by
  simp [find?, List.find?_eq_none]

theorem exists_find?_iff : (∃ f, find? fs n = some f) ↔ n ∈ fs.map (·.name) := by
  rw [← Option.ne_none_iff_exists', ne_eq, find?_eq_none, not_not]

theorem find?_cons (f : Field Ty) (fs : List (Field Ty)) (n : String) :
    find? (f :: fs) n = if f.name = n then some f else find? fs n := by
  by_cases hn : f.name = n <;> simp [find?, hn]

theorem find?_append (fs gs : List (Field Ty)) (n : String) :
    find? (fs ++ gs) n = (find? fs n).or (find? gs n) :=
  List.find?_append

theorem find?_of_mem (h : Apart fs) (hf : f ∈ fs) : find? fs f.name = some f := by
  cases hfind : find? fs f.name with
  | none => exact (find?_eq_none.mp hfind (List.mem_map_of_mem hf)).elim
  | some g =>
    obtain ⟨hg, hname⟩ := find?_eq_some hfind
    exact congrArg some (List.inj_on_of_nodup_map h hg hf hname)

theorem find?_put (f : Field Ty) (fs : List (Field Ty)) (n : String) :
    find? (put f fs) n = if f.name = n then some f else find? fs n := by
  induction fs with
  | nil => exact find?_cons f [] n
  | cons g gs ih =>
    unfold put
    split
    · rename_i hg
      simp only [find?_cons, hg]
      split <;> rfl
    · rename_i hg
      simp only [find?_cons, ih]
      split
      · rename_i hn
        rw [if_neg fun hf => hg (hn.trans hf.symm)]
      · rfl

theorem mem_put (h : g ∈ put f fs) : g = f ∨ g ∈ fs := by
  induction fs with
  | nil => exact .inl (List.mem_singleton.mp h)
  | cons e es ih =>
    unfold put at h
    split at h
    · rcases List.mem_cons.mp h with rfl | h
      · exact .inl rfl
      · exact .inr (List.mem_cons_of_mem e h)
    · rcases List.mem_cons.mp h with rfl | h
      · exact .inr List.mem_cons_self
      · exact (ih h).imp_right (List.mem_cons_of_mem e)

theorem Apart.put (h : Apart fs) : Apart (put f fs) := by
  induction fs with
  | nil => simp [Field.put, Apart]
  | cons e es ih =>
    obtain ⟨he, hes⟩ := List.nodup_cons.mp h
    unfold Field.put
    split
    · rename_i hn
      exact List.nodup_cons.mpr ⟨by simpa only [← hn] using he, hes⟩
    · rename_i hn
      refine List.nodup_cons.mpr ⟨fun hm => ?_, ih hes⟩
      obtain ⟨g, hg, hgn⟩ := List.mem_map.mp hm
      rcases mem_put hg with rfl | hg
      · exact hn hgn.symm
      · exact he (List.mem_map.mpr ⟨g, hg, hgn⟩)

theorem Apart.snoc (h : Apart fs) (hf : find? fs f.name = none) : Apart (fs ++ [f]) := by
  have hn := find?_eq_none.mp hf
  simp only [Apart, List.map_append, List.map_cons, List.map_nil]
  refine List.nodup_append.mpr ⟨h, by simp, ?_⟩
  rintro a ha b hb rfl
  exact hn (List.mem_singleton.mp hb ▸ ha)

theorem repeated?_eq_none {seen : List String} :
    repeated? seen fs = none ↔ Apart fs ∧ ∀ f ∈ fs, f.name ∉ seen := by
  induction fs generalizing seen with
  | nil => simp [repeated?, Apart]
  | cons f fs ih =>
    by_cases hm : f.name ∈ seen
    · simp [repeated?, hm]
    · rw [repeated?, if_neg (by simpa using hm), ih]
      constructor
      · rintro ⟨hd, hs⟩
        refine ⟨List.nodup_cons.mpr ⟨fun hmem => ?_, hd⟩, List.forall_mem_cons.mpr ⟨hm, ?_⟩⟩
        · obtain ⟨g, hg, he⟩ := List.mem_map.mp hmem
          exact hs g hg (he ▸ List.mem_cons_self)
        · exact fun g hg hgs => hs g hg (List.mem_cons_of_mem _ hgs)
      · rintro ⟨hd, hs⟩
        obtain ⟨hn, hd⟩ := List.nodup_cons.mp hd
        refine ⟨hd, fun g hg hgs => ?_⟩
        rcases List.mem_cons.mp hgs with he | hgs
        · exact hn (List.mem_map.mpr ⟨g, hg, he⟩)
        · exact hs g (List.mem_cons_of_mem f hg) hgs

theorem duplicate?_eq_none : duplicate? fs = none ↔ Apart fs := by
  simp [duplicate?, repeated?_eq_none]

/-- What the types of fields cost together. -/
def total (cost : Ty → Nat) (fs : List (Field Ty)) : Nat := (fs.map (cost ·.type)).sum

variable {cost : Ty → Nat}

@[simp] theorem total_nil : total cost [] = 0 := rfl

@[simp] theorem total_cons (f : Field Ty) (fs : List (Field Ty)) :
    total cost (f :: fs) = cost f.type + total cost fs := rfl

theorem total_append (fs gs : List (Field Ty)) :
    total cost (fs ++ gs) = total cost fs + total cost gs := by
  simp [total]

theorem cost_le_total (cost : Ty → Nat) (h : f ∈ fs) : cost f.type ≤ total cost fs :=
  List.le_sum_of_mem (List.mem_map.mpr ⟨f, h, rfl⟩)

/-- A type that takes the place of another changes what the fields cost by the difference. -/
theorem total_put (cost : Ty → Nat) (f : Field Ty) (h : find? fs f.name = some g) :
    total cost (put f fs) + cost g.type = total cost fs + cost f.type := by
  induction fs with
  | nil => cases h
  | cons e es ih =>
    unfold put
    by_cases he : e.name = f.name
    · have hg : e = g := by simpa [find?, he] using h
      subst hg
      simp only [he, if_true, total_cons]
      omega
    · have hes : find? es f.name = some g := by simpa [find?, he] using h
      have hput := ih hes
      simp only [he, if_false, total_cons]
      omega

/-- Fields found by different names are different fields. -/
theorem total_found (h : Apart fs) (gs : List (Field Ty)) :
    total cost (fs.filterMap fun f => find? gs f.name) ≤ total cost gs := by
  have hnames : (fs.filterMap fun f => find? gs f.name).map (·.name) =
      (fs.map (·.name)).filter fun n => (find? gs n).isSome := by
    clear h
    induction fs with
    | nil => rfl
    | cons f fs ih =>
      cases hf : find? gs f.name with
      | none => simpa [hf] using ih
      | some g => simpa [hf, (find?_eq_some hf).2] using ih
  have hd : (fs.filterMap fun f => find? gs f.name).Nodup := by
    apply List.Nodup.of_map (·.name)
    rw [hnames]
    exact h.filter _
  have hsub : (fs.filterMap fun f => find? gs f.name) ⊆ gs := by
    intro g hg
    obtain ⟨f, _, hf⟩ := List.mem_filterMap.mp hg
    exact (find?_eq_some hf).1
  exact sum_map_le_of_subperm (hd.subperm hsub) fun g => cost g.type

end Field

/-- The index of an object. -/
def Ty.index? : Ty → Option (Index Ty)
  | .object _ i _ => i
  | _ => none

end ShapeCheck
