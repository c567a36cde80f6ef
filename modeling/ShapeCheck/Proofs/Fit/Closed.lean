import ShapeCheck.Fit.Object
import ShapeCheck.Proofs.Fit.Members
import ShapeCheck.Proofs.Ty.Within

/-! The check of types without references has enough depth: every question it puts is about types
that weigh less, except for the one about an intersection that was combined. So an object with
distinct field names is built, or it is refused because a field does not fit its index. -/

namespace ShapeCheck
variable {σ α β : Type} {Err : Fault → Prop}

/-- From every state there is a result, or a fault of some kind. -/
def Ends (Err : Fault → Prop) (act : CheckM σ α) : Prop :=
  ∀ st, Settles Err (fun _ => act) st fun _ _ => True

theorem ends_pure (a : α) : Ends Err (pure a : CheckM σ α) := fun _ => settles_pure trivial

theorem Ends.bind {act : CheckM σ α} {f : α → CheckM σ β} (h : Ends Err act)
    (hf : ∀ a, Ends Err (f a)) : Ends Err (act >>= f) :=
  fun st => (h st).bind fun a st' _ => hf a st'

theorem Ends.within {act : CheckM σ Verdict} (segment : Segment) (h : Ends Err act) :
    Ends Err (CheckM.within segment act) :=
  fun st => Settles.map ((h st).imp fun _ _ _ => trivial)

theorem ends_firstMisfit {f : α → CheckM σ Verdict} {xs : List α} (h : ∀ x ∈ xs, Ends Err (f x)) :
    Ends Err (CheckM.firstMisfit f xs) := by
  induction xs with
  | nil => exact ends_pure none
  | cons x xs ih =>
    refine (h x List.mem_cons_self).bind fun v => ?_
    cases v with
    | none => exact ih fun y hy => h y (List.mem_cons_of_mem x hy)
    | some m => exact ends_pure _

theorem ends_someFits {f : α → CheckM σ Verdict} {xs : List α} (h : ∀ x ∈ xs, Ends Err (f x)) :
    Ends Err (CheckM.someFits f xs) := by
  induction xs with
  | nil => exact ends_pure false
  | cons x xs ih =>
    refine (h x List.mem_cons_self).bind fun v => ?_
    cases v with
    | none => exact ends_pure true
    | some m => exact ih fun y hy => h y (List.mem_cons_of_mem x hy)

theorem Ends.remember {work : CheckM σ Verdict} (keep : Bool) (q : Question) (h : Ends Err work) :
    Ends Err (remember keep q work) :=
  fun _ => settles_remember (fun _ _ => trivial) (fun _ _ => trivial)
    fun _ => (h _).imp fun _ _ _ => trivial

section
variable {ask : Ask σ} {s t : Ty}

theorem ends_fromUnion {ms : List Ty} (h : ∀ m ∈ ms, Ends Err (ask m t)) :
    Ends Err (Rule.fromUnion ask s ms t) := by
  refine ends_firstMisfit fun m hm => (h m hm).bind fun v => ?_
  cases v with
  | none => exact ends_pure none
  | some found =>
    by_cases hp : found.path.isEmpty
    · simp only [hp]
      exact ends_pure _
    · simp only [hp]
      exact ends_pure _

theorem ends_some {ms : List Ty} {f : Ty → CheckM σ Verdict} {no : Verdict}
    (h : ∀ m ∈ ms, Ends Err (f m)) :
    Ends Err (do if ← CheckM.someFits f ms then pure none else pure no) := by
  refine (ends_someFits h).bind fun b => ?_
  cases b with
  | true => exact ends_pure none
  | false => exact ends_pure no

theorem ends_pointwise {pairs : List (Ty × Ty)} (h : ∀ p ∈ pairs, Ends Err (ask p.1 p.2)) :
    Ends Err (Rule.pointwise ask pairs) :=
  ends_firstMisfit fun x hx => (h x.1 (List.fst_mem_of_mem_zipIdx hx)).within _

theorem ends_toObject {fs gs : List (Field Ty)} {own wanted : Option (Index Ty)}
    {n : Option String} (hf : ∀ f ∈ fs, ∀ g ∈ gs, Ends Err (ask f.type g.type))
    (hi : ∀ i, wanted = some i → (∀ f ∈ fs, Ends Err (ask f.type i.value)) ∧
      ∀ j, own = some j → Ends Err (ask j.value i.value)) :
    Ends Err (Rule.toObject ask (.object fs own n) t gs wanted) := by
  have hunder : ∀ {value type : Ty} {segment : Segment}, Ends Err (ask type value) →
      Ends Err (Rule.underIndex ask value type segment) := by
    intro value type segment h
    refine h.bind fun v => ?_
    cases v <;> exact ends_pure _
  have hwanted : ∀ g ∈ gs, Ends Err (Rule.wantedField ask (.object fs own n) t fs g) := by
    intro g hg
    unfold Rule.wantedField
    cases hfind : Field.find? fs g.name with
    | none => cases ho : g.optional <;> exact ends_pure _
    | some f =>
      dsimp only
      split
      · exact ends_pure _
      · exact (hf f (Field.find?_eq_some hfind).1 g hg).within _
  refine (ends_firstMisfit hwanted).bind fun v => ?_
  cases v with
  | some m => exact ends_pure _
  | none =>
    cases wanted with
    | none => exact ends_pure _
    | some i =>
      obtain ⟨hfields, hown⟩ := hi i rfl
      refine (ends_firstMisfit fun f hf => hunder (hfields f hf)).bind fun v => ?_
      cases v with
      | some m => exact ends_pure _
      | none =>
        cases own with
        | none => exact ends_pure _
        | some j => exact hunder (hown j rfl)

/-- A structural step ends if the questions do that are about lighter types, and the combined
object of an intersection if it is asked about. -/
theorem ends_structural {ctx : Surroundings σ} {depth : Nat} {Adm : Ty → Prop}
    (hsolid : ∀ {t : Ty}, Adm t → t.Solid) (hadm : ∀ {t u : Ty}, Adm t → u ∈ t.children → Adm u)
    (hs : Adm s) (ht : Adm t)
    (h : ∀ {a b : Ty}, Adm a → Adm b → a.weight + b.weight < s.weight + t.weight →
      Ends Err (ask a b))
    (hinter : ∀ ms, s = .inter ms → Ends Err (Rule.fromInter ctx ask depth s ms t)) :
    Ends Err (Rule.structural ctx ask depth s t) := by
  have hchild : ∀ {t u : Ty}, Adm t → u ∈ t.children → Adm u ∧ u.weight < t.weight :=
    fun ht hu => ⟨hadm ht hu, Ty.weight_lt_of_mem_children hu (hsolid ht).here.1⟩
  have hleft : ∀ u ∈ s.children, Ends Err (ask u t) := fun u hu =>
    h (hchild hs hu).1 ht (Nat.add_lt_add_right (hchild hs hu).2 _)
  have hright : ∀ u ∈ t.children, Ends Err (ask s u) := fun u hu =>
    h hs (hchild ht hu).1 (Nat.add_lt_add_left (hchild ht hu).2 _)
  have hboth : ∀ u ∈ s.children, ∀ v ∈ t.children, Ends Err (ask u v) := fun u hu v hv =>
    h (hchild hs hu).1 (hchild ht hv).1 (Nat.add_lt_add (hchild hs hu).2 (hchild ht hv).2)
  unfold Rule.structural
  split
  · exact ends_fromUnion hleft
  split
  · exact ends_firstMisfit hright
  · exact ends_some hright
  unfold Rule.plain
  split
  · exact hinter _ rfl
  split
  · cases s with
    | array a => exact (hboth a (List.mem_singleton_self a) _ (List.mem_singleton_self _)).within _
    | tuple as =>
      refine ends_pointwise fun p hp => ?_
      obtain ⟨a, ha, rfl⟩ := List.mem_map.mp hp
      exact hboth a ha _ (List.mem_singleton_self _)
    | _ => exact ends_pure _
  · cases s with
    | tuple as =>
      simp only [Rule.toTuple]
      split
      · exact ends_pointwise fun p hp => hboth _ (List.of_mem_zip hp).1 _ (List.of_mem_zip hp).2
      · exact ends_pure _
    | _ => exact ends_pure _
  · cases s with
    | object fs own n =>
      refine ends_toObject (fun f hf g hg => ?_) fun i hi => ⟨fun f hf => ?_, fun j hj => ?_⟩
      · exact hboth _ (Ty.field_mem_children hf) _ (Ty.field_mem_children hg)
      · exact hboth _ (Ty.field_mem_children hf) _ (Ty.value_mem_children hi)
      · exact hboth _ (Ty.value_mem_children hj) _ (Ty.value_mem_children hi)
    | _ => exact ends_pure _
  · cases (hsolid ht).here.1
  · cases (hsolid ht).here.1
  · exact ends_pure _

end

section
variable {ask : Ask Unit} {fs : List (Field Ty)} {index : Option (Index Ty)} {name : Option String}

theorem ends_fitIndex {v : Ty} (h : ∀ f ∈ fs, Ends Fault.IsMisfit (ask f.type v)) :
    Ends Fault.IsMisfit (fitIndex ask v fs) := by
  induction fs with
  | nil => exact ends_pure ()
  | cons f fs ih =>
    refine (h f List.mem_cons_self).bind fun r => ?_
    cases r with
    | none => exact ih fun g hg => h g (List.mem_cons_of_mem f hg)
    | some m => exact fun _ => settles_throw ⟨f.name, f.type, v, rfl⟩

/-- An object with distinct field names is built, unless a field does not fit its index. -/
theorem objectBy_outcome (ha : Field.Apart fs)
    (h : ∀ i, index = some i → i.value.defers = false → ∀ f ∈ fs, f.type.defers = false →
      Ends Fault.IsMisfit (ask f.type i.value)) :
    objectBy ask fs index name = .ok (.object fs index name) ∨
      ∃ e, objectBy ask fs index name = .error e ∧ e.IsMisfit ∧ index ≠ none := by
  unfold objectBy
  rw [Field.duplicate?_eq_none.mpr ha]
  cases index with
  | none => exact .inl rfl
  | some i =>
    by_cases hd : i.value.defers
    · simp [hd]
    · have hends : Ends Fault.IsMisfit
          (fitIndex ask i.value (fs.filter fun f => !f.type.defers)) := by
        refine ends_fitIndex fun f hf => ?_
        obtain ⟨hm, hf⟩ := List.mem_filter.mp hf
        exact h i rfl (by simpa using hd) f hm (by simpa using hf)
      obtain ⟨bound, r, st, hrun, hr⟩ := hends ⟨Memo.empty, ()⟩
      have hcheck : checkIndex ask fs i.value = r := by
        rw [checkIndex, hrun bound (Nat.le_refl _)]
      simp only [hd, hcheck]
      cases r with
      | ok u => exact .inl rfl
      | error e => exact .inr ⟨e, rfl, hr, by simp⟩

end

/-- The surroundings in which a check without references puts its questions. -/
def closedContext (depth : Nat) : Surroundings Unit where
  variance := .contravariant
  memoize := true
  unwrap := pure
  objectOf := fun fs index => objectBy (closedAsk depth) fs index none

/-- Combining types in a check without references: what counts is the weight. -/
def closedLedger (depth : Nat) : Ledger (closedContext depth) where
  Err := Fault.IsMisfit
  Inv _ := True
  Step _ _ := True
  refl _ := trivial
  trans _ _ := trivial
  ask _ := closedAsk depth
  depth _ := depth
  In _ t := t.Solid
  Name _ _ := True
  Inters := True
  Indexes := True
  cost t := t.weight + 1
  fields := Ty.fieldsWeight
  index := Ty.indexWeight
  in_stable _ _ _ _ h := h
  name_stable _ _ _ _ h := h
  child h hu := h.child hu
  apart h := ⟨h.here.2, fun _ _ => trivial⟩
  inters _ := trivial
  indexes _ := trivial
  never {_ t} _ := ⟨.leaf ⟨rfl, trivial⟩ rfl, Nat.succ_le_succ t.weight_pos⟩
  join hne h := ⟨.join ⟨rfl, trivial⟩ (fun _ => ⟨rfl, trivial⟩) h, Ty.weight_join hne⟩
  meet {_ a b} _ ha hb _ _ := by
    refine ⟨.meet ⟨rfl, trivial⟩ ⟨rfl, trivial⟩ (fun _ => ⟨rfl, trivial⟩) ?_, Ty.weight_meet a b⟩
    simpa using ⟨ha, hb⟩
  fields_object _ := Ty.fieldsWeight_object _ _ _
  fields_union := Ty.sum_fieldsWeight_union
  fields_inter := Ty.sum_fieldsWeight_inter
  index_object _ := Nat.le_refl _
  index_inter := Ty.indexWeight_le_inter
  unwrap _ := rfl
  resolve _ ht := Frame.gives_pure trivial ht

/-- How much there is to do for a question. A combined intersection is as heavy as the
intersection at most, but it is combined no more. -/
def effort (s t : Ty) : Nat :=
  2 * (s.weight + t.weight) + match s with
    | .inter _ => 1
    | _ => 0

theorem effort_le (s t : Ty) : effort s t ≤ 2 * (s.weight + t.weight) + 1 := by
  unfold effort
  split <;> omega

theorem effort_lt {a b s t : Ty} (h : a.weight + b.weight < s.weight + t.weight) :
    effort a b < effort s t := by
  have := effort_le a b
  have : 2 * (s.weight + t.weight) ≤ effort s t := Nat.le_add_right _ _
  omega

theorem le_effort (s t : Ty) : 2 * (s.weight + t.weight) ≤ effort s t := Nat.le_add_right _ _

/-- All that is collected from an intersection weighs less than the intersection, its index
included, so the combined object is no heavier. -/
theorem settles_combinedObject {n : Nat} {ms : List Ty} (hs : (Ty.inter ms).Solid)
    (hn : (Ty.inter ms).weight ≤ n)
    (h : ∀ {a b : Ty}, a.Solid → b.Solid → a.weight + b.weight < (Ty.inter ms).weight →
      Ends Fault.IsMisfit (closedAsk n a b)) (st : CheckState Unit) :
    Settles Fault.IsMisfit
      (fun _ => Member.combinedObject (closedContext n) (closedAsk n) n (.inter ms)) st
      fun r _ => ∀ shape, r = some shape → shape.Solid ∧
        shape.weight ≤ (Ty.inter ms).weight ∧ ∀ us, shape ≠ .inter us := by
  let L := closedLedger n
  have hroom : L.fields (.inter ms) + L.index (.inter ms) + 1 = (Ty.inter ms).weight :=
    (Ty.inter ms).fieldsWeight_add_indexWeight
  have hans : L.Answers (L.fields (.inter ms) + L.index (.inter ms)) st := by
    intro st' a b _ _ ha hb hc
    have hc : a.weight + 1 + (b.weight + 1) ≤ _ := hc
    exact (h ha hb (by omega) st').imp fun _ _ _ => ⟨trivial, trivial, trivial⟩
  have hdeep : L.Deep 0 (.inter ms) := ⟨0, fun _ _ => (Ty.size_le_weight hs).trans hn⟩
  have hfound : L.Found st 0 (.inter ms) := by
    refine Ledger.found_of_refs (fun us hq u hu => ?_) (fun m k hq => ?_) hans hs
      (Nat.le_add_right _ _) hdeep
    · rcases hq with hq | hq
      · exact hq.child hu
      · exact hq.child hu
    · cases hq.here.1
  refine Settles.imp (Ledger.gives_combinedObject hans trivial hs hfound (Nat.le_refl _) ?_) ?_
  · intro st' fs i _ _ hfs hi
    have houtcome : objectBy (closedAsk n) fs i none = .ok (.object fs i none) ∨ _ :=
      objectBy_outcome hfs.apart fun j hj _ f hf _ => by
        obtain ⟨-, hj, hjc⟩ := hi j hj
        have hjc : j.value.weight + 1 ≤ _ := hjc
        have hfc : f.type.weight + 1 ≤ _ := (Field.cost_le_total L.cost hf).trans hfs.cost
        exact h (hfs.type f hf) hj (by omega)
    rcases houtcome with ho | ⟨e, ho, he, _⟩
    · exact .inl ho
    · exact .inr ⟨e, ho, he⟩
  · rintro r st' ⟨-, -, hr⟩ shape he
    obtain ⟨fs, i, rfl, hfs, hi⟩ := hr shape he
    refine ⟨.mk ⟨rfl, hfs.apart⟩ fun u hu => ?_, ?_, by simp⟩
    · rcases Ty.mem_children_object.mp hu with ⟨f, hf, rfl⟩ | ⟨j, hj, rfl⟩
      · exact hfs.type f hf
      · exact (hi j hj).2.1
    · have hfc : Field.total (fun t => t.weight + 1) fs ≤ _ := hfs.cost
      have hic : (Ty.object fs i none).indexWeight ≤ L.index (.inter ms) := by
        cases i with
        | none => exact Nat.zero_le _
        | some j => exact (hi j rfl).2.2
      rw [Ty.weight_object]
      omega

/-- A question that is not answered at once is answered by the rules for its two shapes. -/
theorem ends_closedAsk_succ {Err : Fault → Prop} {n : Nat} {s t : Ty}
    (h : Ends Err (Rule.structural (closedContext n) (closedAsk n) n s t)) :
    Ends Err (closedAsk (n + 1) s t) := by
  have hanswer : closedAsk (n + 1) s t =
      Rule.answer (closedContext n) (closedAsk n) n s t := rfl
  have hresolve : ∀ u, (closedContext n).resolve u = pure u := fun _ => rfl
  rw [hanswer, Rule.answer]
  simp only [hresolve, pure_bind]
  split
  · exact ends_pure _
  · exact Ends.remember _ _ h

theorem ends_closedAsk {n : Nat} {s t : Ty} (hs : s.Solid) (ht : t.Solid) (h : effort s t < n) :
    Ends Fault.IsMisfit (closedAsk n s t) := by
  induction n generalizing s t with
  | zero => omega
  | succ n ih =>
    have hlight : ∀ {a b : Ty}, a.Solid → b.Solid → a.weight + b.weight < s.weight + t.weight →
        Ends Fault.IsMisfit (closedAsk n a b) := fun ha hb hw =>
      ih ha hb (by have := effort_lt hw; omega)
    refine ends_closedAsk_succ (ends_structural id Ty.Everywhere.child hs ht hlight ?_)
    rintro ms rfl
    have hsome : Ends Fault.IsMisfit (Rule.fromSome (closedAsk n) (.inter ms) ms t) :=
      ends_some fun m hm => hlight (hs.child hm) ht
        (Nat.add_lt_add_right (Ty.weight_lt_of_mem_children (t := .inter ms) hm rfl) _)
    cases t with
    | object gs wanted name =>
      intro st
      have hle := le_effort (.inter ms) (.object gs wanted name)
      refine (settles_combinedObject hs (by omega)
        (fun ha hb hw => hlight ha hb (by omega)) st).bind fun r st' hr => ?_
      cases r with
      | none => exact hsome st'
      | some shape =>
        obtain ⟨hsolid, hw, hnot⟩ := hr shape rfl
        have hshape : effort shape (.object gs wanted name) <
            effort (.inter ms) (.object gs wanted name) := by
          cases shape with
          | inter us => exact (hnot us rfl).elim
          | _ => simp only [effort]; omega
        refine (ih hsolid ht (by omega) st').bind fun v st'' _ => ?_
        cases v with
        | none => exact settles_pure trivial
        | some m => exact settles_pure trivial
    | _ => exact hsome

/-- An object with distinct field names everywhere is built, unless a field does not fit its
index. -/
theorem Ty.objectOf_outcome {fs : List (Field Ty)} {index : Option (Index Ty)}
    (name : Option String) (ha : Field.Apart fs) (hf : ∀ f ∈ fs, Everywhere Orderly f.type)
    (hi : ∀ i, index = some i → Everywhere Orderly i.value) :
    Ty.objectOf fs index name = .ok (.object fs index name) ∨
      ∃ e, Ty.objectOf fs index name = .error e ∧ e.IsMisfit ∧ index ≠ none := by
  refine objectBy_outcome ha fun i he hid f hm hfd => ?_
  refine ends_closedAsk (solid_of_orderly (hf f hm) hfd) (solid_of_orderly (hi i he) hid) ?_
  have hsize : f.type.size ≤ sizeFields fs := size_le_sizeFields (List.mem_map.mpr ⟨f, hm, rfl⟩)
  have := effort_le f.type i.value
  have := f.type.weight_lt_size
  have := i.value.weight_lt_size
  simp only [closedDepth, he, Option.map_some, Option.getD_some]
  omega

end ShapeCheck
