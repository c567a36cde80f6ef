import ShapeCheck.Proofs.Ty.Preorder

/-! A weight under which combining types makes nothing heavier, and types that hold neither
references nor callables. -/

namespace ShapeCheck.Ty

mutual
/-- The types that a type is made of, with one more for each property: so much room there is to
combine the types of properties. What callables are made of does not count. -/
def weight : Ty → Nat
  | .prim _ | .literal _ | .ref _ | .func _ _ | .ctor _ => 1
  | .array e => e.weight + 1
  | .tuple es | .union es | .inter es => weightList es + 1
  | .object fs none _ => weightFields fs + 1
  | .object fs (some ⟨_, v⟩) _ => weightFields fs + v.weight + 2

def weightList : List Ty → Nat
  | [] => 0
  | t :: ts => t.weight + weightList ts

def weightFields : List (Field Ty) → Nat
  | [] => 0
  | ⟨_, t, _⟩ :: fs => t.weight + 1 + weightFields fs
end

mutual
/-- The part of the weight that the indexes of a type or of its members make up. -/
def indexWeight : Ty → Nat
  | .object _ (some ⟨_, v⟩) _ => v.weight + 1
  | .inter ms => indexWeightList ms
  | _ => 0

def indexWeightList : List Ty → Nat
  | [] => 0
  | t :: ts => t.indexWeight + indexWeightList ts
end

attribute [local simp] weight weightList weightFields indexWeight indexWeightList size

variable {t u : Ty} {ts : List Ty}

theorem weightList_eq (ts : List Ty) : weightList ts = (ts.map weight).sum := by
  induction ts with
  | nil => rfl
  | cons t ts ih => simp [ih]

theorem indexWeightList_eq (ts : List Ty) : indexWeightList ts = (ts.map indexWeight).sum := by
  induction ts with
  | nil => rfl
  | cons t ts ih => simp [ih]

theorem weightFields_eq (fs : List (Field Ty)) :
    weightFields fs = Field.total (fun t => t.weight + 1) fs := by
  induction fs with
  | nil => rfl
  | cons f fs ih => simp [ih]

theorem weight_object (fs : List (Field Ty)) (index : Option (Index Ty)) (name : Option String) :
    (object fs index name).weight = Field.total (fun t => t.weight + 1) fs + 1 +
      (object fs index name).indexWeight := by
  cases index with
  | none => simp [weightFields_eq]
  | some i =>
    simp only [weight, indexWeight, weightFields_eq]
    omega

theorem weight_pos (t : Ty) : 0 < t.weight := by
  cases t with
  | object fs index name =>
    rw [weight_object]
    omega
  | _ => simp

theorem weight_le_sum (h : t ∈ ts) : t.weight ≤ (ts.map weight).sum :=
  List.le_sum_of_mem (List.mem_map.mpr ⟨t, h, rfl⟩)

/-- Fields and indexes together weigh less than the type. -/
theorem indexWeight_lt_weight (t : Ty) : t.indexWeight < t.weight := by
  induction t using child_induction with
  | step t ih =>
    cases t with
    | object fs index name => rw [weight_object]; omega
    | inter ms =>
      have hle : (ms.map indexWeight).sum ≤ (ms.map weight).sum :=
        List.sum_le_sum fun m hm => Nat.le_of_lt (ih m hm)
      simp only [weight, indexWeight, weightList_eq, indexWeightList_eq]
      omega
    | _ => simp

/-- What is left of the weight for the fields of a type. -/
def fieldsWeight (t : Ty) : Nat := t.weight - 1 - t.indexWeight

theorem fieldsWeight_add_indexWeight (t : Ty) : t.fieldsWeight + t.indexWeight + 1 = t.weight := by
  have := t.indexWeight_lt_weight
  unfold fieldsWeight
  omega

theorem fieldsWeight_object (fs : List (Field Ty)) (index : Option (Index Ty))
    (name : Option String) :
    Field.total (·.weight + 1) fs ≤ (object fs index name).fieldsWeight := by
  rw [fieldsWeight, weight_object]
  omega

theorem sum_fieldsWeight_union (ms : List Ty) :
    (ms.map fieldsWeight).sum ≤ (union ms).fieldsWeight := by
  have hle : (ms.map fieldsWeight).sum ≤ (ms.map weight).sum := by
    refine List.sum_le_sum fun m _ => ?_
    have := m.fieldsWeight_add_indexWeight
    omega
  show _ ≤ (union ms).weight - 1 - (union ms).indexWeight
  simp only [weight, indexWeight, weightList_eq]
  omega

theorem sum_fieldsWeight_inter (ms : List Ty) :
    (ms.map fieldsWeight).sum ≤ (inter ms).fieldsWeight := by
  have hsum : (ms.map fieldsWeight).sum + (ms.map indexWeight).sum ≤ (ms.map weight).sum := by
    induction ms with
    | nil => simp
    | cons m ms ih =>
      have := m.fieldsWeight_add_indexWeight
      simp only [List.map_cons, List.sum_cons]
      omega
  show _ ≤ (inter ms).weight - 1 - (inter ms).indexWeight
  simp only [weight, indexWeight, weightList_eq, indexWeightList_eq]
  omega

theorem indexWeight_le_inter {ms : List Ty} (h : t ∈ ms) :
    t.indexWeight ≤ (inter ms).indexWeight := by
  simp only [indexWeight, indexWeightList_eq]
  exact List.le_sum_of_mem (List.mem_map.mpr ⟨t, h, rfl⟩)

theorem weight_lt_of_mem_children (h : u ∈ t.children) (hd : t.isDeferring = false) :
    u.weight < t.weight := by
  cases t with
  | prim k | literal l => cases h
  | ref n | func ss r | ctor ss => cases hd
  | array e =>
    cases List.mem_singleton.mp h
    simp
  | tuple es | union es | inter es =>
    have := weight_le_sum (show u ∈ es from h)
    simp only [weight, weightList_eq]
    omega
  | object fs index name =>
    rw [weight_object]
    rcases mem_children_object.mp h with ⟨f, hf, rfl⟩ | ⟨i, rfl, rfl⟩
    · have := Field.cost_le_total (fun t => t.weight + 1) hf
      omega
    · simp only [indexWeight]
      omega

theorem weight_lt_size (t : Ty) : t.weight < 2 * t.size := by
  have hlist : ∀ ts : List Ty, (∀ t ∈ ts, t.weight < 2 * t.size) →
      weightList ts ≤ 2 * sizeList ts := by
    intro ts h
    induction ts with
    | nil => simp
    | cons t ts ih =>
      obtain ⟨ht, hts⟩ := List.forall_mem_cons.mp h
      have := ih hts
      simp only [weightList, sizeList]
      omega
  have hfields : ∀ fs : List (Field Ty), (∀ f ∈ fs, f.type.weight < 2 * f.type.size) →
      weightFields fs ≤ 2 * sizeFields fs := by
    intro fs h
    induction fs with
    | nil => simp
    | cons f fs ih =>
      obtain ⟨hf, hfs⟩ := List.forall_mem_cons.mp h
      have := ih hfs
      simp only [weightFields, sizeFields]
      omega
  induction t using child_induction with
  | step t ih =>
    cases t with
    | prim k | literal l | ref n => simp
    | func ss r => cases r <;> simp <;> omega
    | ctor ss => simp; omega
    | array e =>
      have := ih e (List.mem_singleton_self e)
      simp only [weight, size]
      omega
    | tuple es | union es | inter es =>
      have := hlist es ih
      simp only [weight, size]
      omega
    | object fs index name =>
      have := hfields fs fun f hf => ih _ (field_mem_children hf)
      cases index with
      | none =>
        simp only [weight, size]
        omega
      | some i =>
        have := ih _ (value_mem_children rfl)
        simp only [weight, size]
        omega

theorem weight_unionParts (t : Ty) : ((unionParts t).map weight).sum ≤ t.weight ∧
    ((unionParts t).length = 1 ∨ ((unionParts t).map weight).sum < t.weight) := by
  cases t with
  | union ms => simp [unionParts, weightList_eq]
  | _ => simp [unionParts]

theorem weight_interParts (t : Ty) : ((interParts t).map weight).sum ≤ t.weight := by
  cases t with
  | inter ms => simp [interParts, weightList_eq]
  | _ => simp [interParts]

/-- A union weighs no more than what it is made from, with one for each. -/
theorem weight_join (h : ts ≠ []) : (join ts).weight + 1 ≤ (ts.map fun t => t.weight + 1).sum := by
  have hsum : ∀ ts : List Ty, ((ts.flatMap unionParts).map weight).sum + ts.length ≤
      (ts.map fun t => t.weight + 1).sum := by
    intro ts
    induction ts with
    | nil => simp
    | cons t ts ih =>
      have := (weight_unionParts t).1
      simp only [List.flatMap_cons, List.map_append, List.sum_append, List.length_cons,
        List.map_cons, List.sum_cons]
      omega
  have hone : 0 < ts.length := List.length_pos_iff.mpr h
  have hts := hsum ts
  rcases join_cases ts with hm | he | ⟨ms, he, hl, _, hs⟩
  · have := weight_le_sum hm
    omega
  · obtain ⟨t, ht⟩ := List.exists_mem_of_ne_nil ts h
    have := List.le_sum_of_mem (List.mem_map.mpr ⟨t, ht, rfl⟩ :
      t.weight + 1 ∈ ts.map fun t => t.weight + 1)
    have := t.weight_pos
    rw [he]
    simp only [weight]
    omega
  · have hms := sum_map_le_of_subperm hs weight
    rw [he]
    simp only [weight, weightList_eq]
    rcases ts with _ | ⟨t, _ | ⟨t', ts⟩⟩
    · exact (h rfl).elim
    · simp only [List.flatMap_cons, List.flatMap_nil, List.append_nil] at hms hs
      have hlen := hs.length_le
      rcases (weight_unionParts t).2 with h1 | hlt
      · omega
      · simp only [List.map_cons, List.map_nil, List.sum_cons, List.sum_nil]
        omega
    · simp only [List.length_cons] at hts
      omega

theorem weight_meet (a b : Ty) : (meet [a, b]).weight + 1 ≤ a.weight + 1 + (b.weight + 1) := by
  have ha := weight_interParts a
  have hb := weight_interParts b
  have hap := a.weight_pos
  have hsum : (([a, b].flatMap interParts).map weight).sum ≤ a.weight + b.weight := by
    simp only [List.flatMap_cons, List.flatMap_nil, List.append_nil, List.map_append,
      List.sum_append]
    omega
  rcases meet_cases [a, b] with hm | he | he | ⟨ms, he, _, hs⟩
  · have := weight_le_sum hm
    omega
  · rw [he]
    simp only [weight]
    omega
  · rw [he]
    simp only [weight]
    omega
  · have := sum_map_le_of_subperm hs weight
    rw [he]
    simp only [weight, weightList_eq]
    omega

/-- The fields of an object are apart. -/
def Orderly : Ty → Prop
  | .object fs _ _ => Field.Apart fs
  | _ => True

/-- Neither references nor callables, and fields that are apart, all through a type. -/
abbrev Solid : Ty → Prop := Everywhere fun u => u.isDeferring = false ∧ u.Orderly

theorem solid_of_orderly (h : Everywhere Orderly t) (hd : t.defers = false) : t.Solid := by
  have hnone : ∀ u, Inside t u → u.isDeferring = false := by
    intro u hu
    by_contra hdefer
    rw [defers_iff.mpr ⟨u, hu, by simpa using hdefer⟩] at hd
    cases hd
  clear hd
  induction t using child_induction with
  | step t ih =>
    refine .mk ⟨hnone t (.here t), h.here⟩ fun u hu => ?_
    exact ih u hu (h.child hu) fun v hv => hnone v (.child hu hv)

theorem size_le_weight (h : t.Solid) : t.size ≤ t.weight := by
  have hlist : ∀ ts : List Ty, (∀ t ∈ ts, t.size ≤ t.weight) → sizeList ts ≤ weightList ts := by
    intro ts h
    induction ts with
    | nil => simp [sizeList]
    | cons t ts ih =>
      obtain ⟨ht, hts⟩ := List.forall_mem_cons.mp h
      exact Nat.add_le_add ht (ih hts)
  have hfields : ∀ fs : List (Field Ty), (∀ f ∈ fs, f.type.size ≤ f.type.weight) →
      sizeFields fs ≤ weightFields fs := by
    intro fs h
    induction fs with
    | nil => simp [sizeFields]
    | cons f fs ih =>
      obtain ⟨hf, hfs⟩ := List.forall_mem_cons.mp h
      have := ih hfs
      simp only [sizeFields, weightFields]
      omega
  induction t using child_induction with
  | step t ih =>
    have ih := fun u hu => ih u hu (h.child hu)
    cases t with
    | prim k | literal l => simp
    | ref n | func ss r | ctor ss => cases h.here.1
    | array e => exact Nat.succ_le_succ (ih e (List.mem_singleton_self e))
    | tuple es | union es | inter es => exact Nat.succ_le_succ (hlist es ih)
    | object fs index name =>
      have := hfields fs fun f hf => ih _ (field_mem_children hf)
      cases index with
      | none => exact Nat.succ_le_succ this
      | some i =>
        have := ih _ (value_mem_children rfl)
        simp only [size, weight]
        omega

end ShapeCheck.Ty
