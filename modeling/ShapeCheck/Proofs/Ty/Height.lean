import Mathlib.Data.List.MinMax
import Mathlib.Data.Prod.Lex
import Mathlib.Order.WellFounded
import ShapeCheck.Proofs.Ty.Combine

/-! How deep types are nested. Unions and intersections add nothing to the height of a type, so
combining types makes none of them higher; how they are nested in each other is counted apart. -/

namespace ShapeCheck.Ty
variable {t u : Ty} {ts : List Ty} {n : Nat}

/-- A union or an intersection. -/
def isBlend : Ty → Bool
  | .union _ | .inter _ => true
  | _ => false

/-- The nesting of arrays, tuples, objects and callables. -/
def height (t : Ty) : Nat :=
  (t.children.attach.map fun u => u.1.height + if t.isBlend then 0 else 1).foldr max ⊥
termination_by t.size
decreasing_by exact size_lt_of_mem_children u.2

/-- The nesting of unions and intersections in each other. -/
def nest (t : Ty) : Nat :=
  if t.isBlend then (t.children.attach.map fun u => u.1.nest).foldr max ⊥ + 1 else 0
termination_by t.size
decreasing_by exact size_lt_of_mem_children u.2

theorem foldr_max_le_iff {xs : List Nat} : xs.foldr max ⊥ ≤ n ↔ ∀ x ∈ xs, x ≤ n :=
  ⟨fun h _ hx => (List.le_max_of_le hx le_rfl).trans h, List.max_le_of_forall_le xs n⟩

theorem height_le_iff :
    t.height ≤ n ↔ ∀ u ∈ t.children, u.height + (if t.isBlend then 0 else 1) ≤ n := by
  rw [height, foldr_max_le_iff]
  simp

theorem nest_of_not_blend (h : t.isBlend = false) : t.nest = 0 := by
  rw [nest, h]
  rfl

theorem nest_pos (h : t.isBlend) : 0 < t.nest := by
  rw [nest, h]
  exact Nat.succ_pos _

theorem nest_le_iff (h : t.isBlend) : t.nest ≤ n + 1 ↔ ∀ u ∈ t.children, u.nest ≤ n := by
  rw [nest, if_pos h, Nat.add_le_add_iff_right, foldr_max_le_iff]
  simp

theorem height_le_of_child (h : u ∈ t.children) : u.height ≤ t.height := by
  have := height_le_iff.mp le_rfl u h
  omega

theorem height_lt_of_child (h : u ∈ t.children) (hb : t.isBlend = false) :
    u.height < t.height := by
  have := height_le_iff.mp le_rfl u h
  rw [hb] at this
  exact this

theorem nest_lt_of_child (h : u ∈ t.children) (hb : t.isBlend) : u.nest < t.nest := by
  obtain ⟨n, hn⟩ := Nat.exists_eq_add_of_lt (nest_pos hb)
  have := (nest_le_iff (n := n) hb).mp (by omega) u h
  omega

theorem height_prim (k : Prim) : (prim k).height = 0 :=
  Nat.le_zero.mp (height_le_iff.mpr (by simp [children]))

/-- Neither a union nor an intersection is higher than the types it is made from. -/
theorem height_join_meet (h : ∀ t ∈ ts, t.height ≤ n) :
    (join ts).height ≤ n ∧ (meet ts).height ≤ n := by
  refine join_meet_hold (fun k => (height_prim k).trans_le (Nat.zero_le n)) ?_ h
  rintro t ms (rfl | rfl)
  · exact height_le_iff
  · exact height_le_iff

theorem height_join (h : ∀ t ∈ ts, t.height ≤ n) : (join ts).height ≤ n := (height_join_meet h).1

theorem height_meet (h : ∀ t ∈ ts, t.height ≤ n) : (meet ts).height ≤ n := (height_join_meet h).2

theorem height_object {fs : List (Field Ty)} {index : Option (Index Ty)} {name : Option String}
    (hf : ∀ f ∈ fs, f.type.height < n) (hi : ∀ i, index = some i → i.value.height < n) :
    (object fs index name).height ≤ n := by
  apply height_le_iff.mpr
  intro u hu
  rcases mem_children_object.mp hu with ⟨f, hm, rfl⟩ | ⟨i, he, rfl⟩
  · exact hf f hm
  · exact hi i he

/-! Types that are equal are equally high. -/

/-- What is inside of one of two equal types has its like inside of the other. -/
theorem exists_child_of_same {a b : Ty} (h : a.same b) (hu : u ∈ a.children) :
    ∃ v ∈ b.children, u.same v := by
  have hs : ∀ {ss us : List (Signature Ty)}, List.Forall₂ Signature.Same ss us →
      ∀ s ∈ ss, u ∈ s.parts → ∃ r ∈ us, ∃ v ∈ r.parts, u.same v := by
    intro ss us hsu s hs hus
    obtain ⟨r, hr, hsr⟩ := forall₂_mem_left hsu hs
    rcases mem_parts.mp hus with ⟨p, hp, rfl⟩ | rfl
    · obtain ⟨q, hq, hpq⟩ := forall₂_mem_left hsr.params hp
      exact ⟨r, hr, q.type, mem_parts.mpr (.inl ⟨q, hq, rfl⟩), hpq.type⟩
    · exact ⟨r, hr, r.result, mem_parts.mpr (.inr rfl), hsr.result⟩
  cases a with
  | prim k | literal l | ref n => cases hu
  | array a =>
    obtain ⟨b, rfl, hb⟩ := same_array_iff.mp h
    cases List.mem_singleton.mp hu
    exact ⟨b, List.mem_singleton_self b, hb⟩
  | tuple as =>
    obtain ⟨bs, rfl, hb⟩ := same_tuple_iff.mp h
    exact forall₂_mem_left hb hu
  | object fs i name =>
    obtain ⟨gs, j, _, rfl, hf, hi⟩ := same_object_iff.mp h
    rcases mem_children_object.mp hu with ⟨f, hm, rfl⟩ | ⟨k, rfl, rfl⟩
    · obtain ⟨g, hg, hfg⟩ := forall₂_mem_left hf hm
      exact ⟨g.type, field_mem_children hg, hfg.type⟩
    · cases hi with
      | some hkl => exact ⟨_, value_mem_children rfl, hkl.value⟩
  | union as =>
    obtain ⟨bs, rfl, _, hb⟩ := same_union_iff.mp h
    exact hb u hu
  | inter as =>
    obtain ⟨bs, rfl, _, hb⟩ := same_inter_iff.mp h
    exact hb u hu
  | func ss receiver =>
    obtain ⟨us, receiver', rfl, hsu, hr⟩ := same_func_iff.mp h
    rcases mem_children_func.mp hu with rfl | ⟨s, hm, hus⟩
    · cases hr with
      | some hr => exact ⟨_, receiver_mem_children rfl, hr⟩
    · obtain ⟨r, hr, v, hv, huv⟩ := hs hsu s hm hus
      exact ⟨v, part_mem_children_func hr hv, huv⟩
  | ctor ss =>
    obtain ⟨us, rfl, hsu⟩ := same_ctor_iff.mp h
    obtain ⟨s, hm, hus⟩ := mem_children_ctor.mp hu
    obtain ⟨r, hr, v, hv, huv⟩ := hs hsu s hm hus
    exact ⟨v, part_mem_children_ctor hr hv, huv⟩

theorem isBlend_of_same {a b : Ty} (h : a.same b) : a.isBlend = b.isBlend := by
  cases a <;> cases b <;> first | rfl | (exfalso; simp [same] at h)

theorem height_le_of_same {a b : Ty} (h : a.same b) : a.height ≤ b.height := by
  induction a using child_induction generalizing b with
  | step a ih =>
    apply height_le_iff.mpr
    intro u hu
    obtain ⟨v, hv, huv⟩ := exists_child_of_same h hu
    have := height_le_iff.mp le_rfl v hv
    have := ih u hu huv
    rw [isBlend_of_same h]
    omega

theorem nest_le_of_same {a b : Ty} (h : a.same b) : a.nest ≤ b.nest := by
  induction a using child_induction generalizing b with
  | step a ih =>
    by_cases hb : a.isBlend
    · have hb' : b.isBlend := isBlend_of_same h ▸ hb
      obtain ⟨n, hn⟩ := Nat.exists_eq_add_of_lt (nest_pos hb')
      rw [hn, Nat.zero_add]
      apply (nest_le_iff hb).mpr
      intro u hu
      obtain ⟨v, hv, huv⟩ := exists_child_of_same h hu
      have := ih u hu huv
      have := nest_lt_of_child hv hb'
      omega
    · rw [nest_of_not_blend (by simpa using hb)]
      exact Nat.zero_le _

/-- How far a question is from its end: first by the height of its types. -/
def rank (s t : Ty) : ℕ ×ₗ ℕ := toLex (max s.height t.height, s.nest + t.nest)

theorem rank_same {a b c d : Ty} (ha : a.Proper) (hb : b.Proper) (hac : a.same c)
    (hbd : b.same d) : rank a b = rank c d := by
  have h₁ := height_le_of_same hac
  have h₂ := height_le_of_same hbd
  have h₃ := height_le_of_same (same_symm ha hac)
  have h₄ := height_le_of_same (same_symm hb hbd)
  have h₅ := nest_le_of_same hac
  have h₆ := nest_le_of_same hbd
  have h₇ := nest_le_of_same (same_symm ha hac)
  have h₈ := nest_le_of_same (same_symm hb hbd)
  unfold rank
  congr 2 <;> omega

theorem rank_lt_of_height {a b s t : Ty} (ha : a.height < max s.height t.height)
    (hb : b.height < max s.height t.height) : rank a b < rank s t :=
  Prod.Lex.toLex_lt_toLex.mpr (.inl (max_lt ha hb))

theorem rank_lt_of_nest {a b s t : Ty} (ha : a.height ≤ s.height) (hb : b.height ≤ t.height)
    (hn : a.nest + b.nest < s.nest + t.nest) : rank a b < rank s t := by
  rcases (max_le_max ha hb).lt_or_eq with hlt | he
  · exact Prod.Lex.toLex_lt_toLex.mpr (.inl hlt)
  · exact Prod.Lex.toLex_lt_toLex.mpr (.inr ⟨he, hn⟩)

/-- A member of the source is nearer to the end. -/
theorem rank_lt_left {s m : Ty} (t : Ty) (hs : s.isBlend) (hm : m ∈ s.children) :
    rank m t < rank s t :=
  rank_lt_of_nest (height_le_of_child hm) le_rfl
    (Nat.add_lt_add_right (nest_lt_of_child hm hs) _)

theorem rank_lt_right {t m : Ty} (s : Ty) (ht : t.isBlend) (hm : m ∈ t.children) :
    rank s m < rank s t :=
  rank_lt_of_nest le_rfl (height_le_of_child hm)
    (Nat.add_lt_add_left (nest_lt_of_child hm ht) _)

end ShapeCheck.Ty
