import ShapeCheck.Fit.Members
import ShapeCheck.Proofs.Fit.Judge
import ShapeCheck.Proofs.Ty.Fields
import ShapeCheck.Proofs.Ty.Same

/-! Collecting the properties of a type. No name is collected twice, and what is collected costs
no more than what it comes from, whatever the types cost. -/

namespace ShapeCheck

/-- An account of types while properties are collected: which types and names may come up, whether
there are intersections and indexes among them, what a type costs, and what the fields and the
index that it offers cost at most. -/
structure Ledger {σ : Type} (ctx : Surroundings σ) extends Frame (CheckState σ) where
  ask : Nat → Ask σ
  depth : Nat → Nat
  In : CheckState σ → Ty → Prop
  Name : CheckState σ → String → Prop
  Inters : Prop
  Indexes : Prop
  cost : Ty → Nat
  fields : Ty → Nat
  index : Ty → Nat
  in_stable : ∀ t, toFrame.Stable (In · t)
  name_stable : ∀ n, toFrame.Stable (Name · n)
  child : ∀ {st : CheckState σ} {t u : Ty}, In st t → u ∈ t.children → In st u
  apart : ∀ {st : CheckState σ} {fs : List (Field Ty)} {i : Option (Index Ty)} {n : Option String},
    In st (.object fs i n) → Field.Apart fs ∧ ∀ f ∈ fs, Name st f.name
  inters : ∀ {st : CheckState σ} {ms : List Ty}, In st (.inter ms) → Inters
  indexes : ∀ {st : CheckState σ} {fs : List (Field Ty)} {i : Index Ty} {n : Option String},
    In st (.object fs (some i) n) → Indexes
  never : ∀ {st : CheckState σ} {t : Ty}, In st t → In st Ty.never ∧ cost Ty.never ≤ cost t
  join : ∀ {st : CheckState σ} {ts : List Ty}, ts ≠ [] → (∀ t ∈ ts, In st t) →
    In st (Ty.join ts) ∧ cost (Ty.join ts) ≤ (ts.map cost).sum
  meet : ∀ {st : CheckState σ} {a b : Ty}, Inters → In st a → In st b → (∀ ms, a ≠ .union ms) →
    (∀ ms, b ≠ .union ms) → In st (Ty.meet [a, b]) ∧ cost (Ty.meet [a, b]) ≤ cost a + cost b
  fields_object : ∀ {st : CheckState σ} {fs : List (Field Ty)} {i : Option (Index Ty)}
    {n : Option String}, In st (.object fs i n) → Field.total cost fs ≤ fields (.object fs i n)
  fields_union : ∀ ms : List Ty, (ms.map fields).sum ≤ fields (.union ms)
  fields_inter : ∀ ms : List Ty, (ms.map fields).sum ≤ fields (.inter ms)
  index_object : ∀ {st : CheckState σ} {fs : List (Field Ty)} {i : Index Ty} {n : Option String},
    In st (.object fs (some i) n) → cost i.value ≤ index (.object fs (some i) n)
  index_inter : ∀ {ms : List Ty} {m : Ty}, m ∈ ms → index m ≤ index (.inter ms)
  unwrap : ∀ {t : Ty}, (∀ n, t ≠ .ref n) → ctx.unwrap t = pure t
  resolve : ∀ {st : CheckState σ} {t : Ty}, Inv st → In st t →
    toFrame.Gives (fun _ => ctx.resolve t) st fun t' st' => In st' t'

namespace Ledger
variable {σ : Type} {ctx : Surroundings σ} (L : Ledger ctx) {st st' : CheckState σ} {t : Ty}
  {N m k : Nat} {fs gs : List (Field Ty)}

/-- From a state on, questions about types that cost no more than `N` together are answered. -/
def Answers (N : Nat) (st : CheckState σ) : Prop :=
  ∀ {st' : CheckState σ} {a b : Ty}, L.Inv st' → L.Step st st' → L.In st' a → L.In st' b →
    L.cost a + L.cost b ≤ N → L.Gives (fun d => L.ask d a b) st' fun _ _ => True

/-- Fields with distinct names, which cost no more than `n` together. -/
structure Holds (st : CheckState σ) (n : Nat) (fs : List (Field Ty)) : Prop where
  apart : Field.Apart fs
  name : ∀ f ∈ fs, L.Name st f.name
  type : ∀ f ∈ fs, L.In st f.type
  cost : Field.total L.cost fs ≤ n

variable {L}

theorem Answers.later (h : L.Answers N st) (hs : L.Step st st') : L.Answers N st' :=
  fun hi hs' => h hi (L.trans hs hs')

theorem Holds.later (h : L.Holds st m fs) (hs : L.Step st st') : L.Holds st' m fs where
  apart := h.apart
  name f hf := L.name_stable _ _ _ hs (h.name f hf)
  type f hf := L.in_stable _ _ _ hs (h.type f hf)
  cost := h.cost

theorem Holds.le (h : L.Holds st m fs) (hk : m ≤ k) : L.Holds st k fs :=
  { h with cost := Nat.le_trans h.cost hk }

theorem holds_nil (n : Nat) : L.Holds st n [] := ⟨List.nodup_nil, by simp, by simp, by simp⟩

theorem resolve_self (L : Ledger ctx) (h : ∀ n, t ≠ .ref n) : ctx.resolve t = pure t :=
  Surroundings.resolve_eq (L.unwrap h)

theorem gives_isObjectLike (hi : L.Inv st) (ht : L.In st t) :
    L.Gives (fun _ => Member.isObjectLike ctx t) st fun b _ => b = true → ∀ ms, t ≠ .union ms := by
  by_cases hu : ∃ ms, t = .union ms
  · obtain ⟨ms, rfl⟩ := hu
    have hr : ctx.resolve (.union ms) = pure (.union ms) := L.resolve_self (by simp)
    have hrun : Member.isObjectLike ctx (.union ms) = pure false := by
      simp [Member.isObjectLike, hr]
    simp only [hrun]
    exact Frame.gives_pure hi (by simp)
  · refine (L.resolve hi ht).bind fun t' st' hi' _ _ => ?_
    have hpost : ∀ b : Bool, L.Gives (fun _ => pure b) st' fun b _ =>
        b = true → ∀ ms, t ≠ .union ms := fun b =>
      Frame.gives_pure hi' fun _ ms he => hu ⟨ms, he⟩
    cases t' <;> exact hpost _

theorem gives_narrower {a b : Ty} (hx : L.Inters) (ha : L.Answers N st) (hi : L.Inv st)
    (hIa : L.In st a) (hIb : L.In st b) (hN : L.cost a + L.cost b ≤ N) :
    L.Gives (fun d => Member.narrower ctx (L.ask d) a b) st fun t st' =>
      L.In st' t ∧ L.cost t ≤ L.cost a + L.cost b := by
  refine (ha hi (L.refl st) hIa hIb hN).bind fun v st₁ hi₁ hs₁ _ => ?_
  have hIa₁ := L.in_stable _ _ _ hs₁ hIa
  have hIb₁ := L.in_stable _ _ _ hs₁ hIb
  cases v with
  | none => exact Frame.gives_pure hi₁ ⟨hIa₁, Nat.le_add_right _ _⟩
  | some _ =>
    refine (ha hi₁ hs₁ hIb₁ hIa₁ (by omega)).bind fun v st₂ hi₂ hs₂ _ => ?_
    have hIa₂ := L.in_stable _ _ _ hs₂ hIa₁
    have hIb₂ := L.in_stable _ _ _ hs₂ hIb₁
    have hnever : ∀ {st' : CheckState σ}, L.Inv st' → L.In st' a →
        L.Gives (fun _ => pure Ty.never) st' fun t st' =>
          L.In st' t ∧ L.cost t ≤ L.cost a + L.cost b := fun hi' h =>
      Frame.gives_pure hi' ((L.never h).imp_right fun h => Nat.le_add_right_of_le h)
    cases v with
    | none => exact Frame.gives_pure hi₂ ⟨hIb₂, Nat.le_add_left _ _⟩
    | some _ =>
      refine (L.gives_isObjectLike hi₂ hIa₂).bind fun p st₃ hi₃ hs₃ hp => ?_
      have hIa₃ := L.in_stable _ _ _ hs₃ hIa₂
      have hIb₃ := L.in_stable _ _ _ hs₃ hIb₂
      cases p with
      | false => exact hnever hi₃ hIa₃
      | true =>
        refine (L.gives_isObjectLike hi₃ hIb₃).bind fun q st₄ hi₄ hs₄ hq => ?_
        have hIa₄ := L.in_stable _ _ _ hs₄ hIa₃
        cases q with
        | false => exact hnever hi₄ hIa₄
        | true =>
          exact Frame.gives_pure hi₄
            (L.meet hx hIa₄ (L.in_stable _ _ _ hs₄ hIb₃) (hp rfl) (hq rfl))

/-- Fields are merged into those collected so far at no additional cost. -/
theorem gives_mergeFields (hx : L.Inters) (ha : L.Answers N st) (hi : L.Inv st)
    (hm : L.Holds st m gs) (hname : ∀ f ∈ fs, L.Name st f.name) (htype : ∀ f ∈ fs, L.In st f.type)
    (hN : m + Field.total L.cost fs ≤ N) :
    L.Gives (fun d => Member.mergeFields ctx (L.ask d) gs fs) st fun r st' =>
      L.Holds st' (m + Field.total L.cost fs) r := by
  induction fs generalizing st m gs with
  | nil => exact Frame.gives_pure hi hm
  | cons f fs ih =>
    rw [Field.total_cons, ← Nat.add_assoc] at hN ⊢
    have hfN := hname f List.mem_cons_self
    have hfI := htype f List.mem_cons_self
    unfold Member.mergeFields
    cases hg : Field.find? gs f.name with
    | none =>
      refine ih ha hi ⟨hm.apart.snoc hg, ?_, ?_, ?_⟩
        (fun e he => hname e (List.mem_cons_of_mem f he))
        (fun e he => htype e (List.mem_cons_of_mem f he)) hN
      · exact List.forall_mem_append.mpr ⟨hm.name, List.forall_mem_singleton.mpr hfN⟩
      · exact List.forall_mem_append.mpr ⟨hm.type, List.forall_mem_singleton.mpr hfI⟩
      · have := hm.cost
        rw [Field.total_append]
        exact Nat.add_le_add_right this _
    | some g =>
      obtain ⟨hgm, hgn⟩ := Field.find?_eq_some hg
      have hgc := Field.cost_le_total L.cost hgm
      have hmc := hm.cost
      refine (gives_narrower hx ha hi (hm.type g hgm) hfI (by omega)).bind ?_
      intro t st' hi' hs' ⟨hIt, hct⟩
      have hm' := hm.later hs'
      refine ih (ha.later hs') hi' ⟨hm'.apart.put, ?_, ?_, ?_⟩
        (fun e he => L.name_stable _ _ _ hs' (hname e (List.mem_cons_of_mem f he)))
        (fun e he => L.in_stable _ _ _ hs' (htype e (List.mem_cons_of_mem f he))) hN
      · intro e he
        rcases Field.mem_put he with rfl | he
        · exact hm'.name g hgm
        · exact hm'.name e he
      · intro e he
        rcases Field.mem_put he with rfl | he
        · exact hIt
        · exact hm'.type e he
      · have hput := Field.total_put L.cost ⟨g.name, t, g.optional && f.optional⟩ (hgn.symm ▸ hg)
        simp only at hput
        omega

/-- What is known of the fields that a type offers. -/
def Offered (L : Ledger ctx) (n : Nat) (r : Option (List (Field Ty))) (st : CheckState σ) : Prop :=
  ∀ fs, r = some fs → L.Holds st n fs

theorem offered_stable (n : Nat) (r : Option (List (Field Ty))) : L.Stable (L.Offered n r) :=
  fun _ _ hs h fs he => (h fs he).later hs

theorem gives_mergeMembers {fieldsOf : Nat → Ty → CheckM σ (Option (List (Field Ty)))}
    {merged : Option (List (Field Ty))} {ms : List Ty} (hx : L.Inters) (ha : L.Answers N st)
    (hi : L.Inv st)
    (hm : L.Offered m merged st) (hN : m + (ms.map L.fields).sum ≤ N)
    (h : ∀ u ∈ ms, ∀ st', L.Inv st' → L.Step st st' →
      L.Gives (fun d => fieldsOf d u) st' (L.Offered (L.fields u))) :
    L.Gives (fun d => Member.mergeMembers ctx (L.ask d) (fieldsOf d) merged ms) st
      (L.Offered (m + (ms.map L.fields).sum)) := by
  induction ms generalizing st m merged with
  | nil => exact Frame.gives_pure hi hm
  | cons u us ih =>
    rw [List.map_cons, List.sum_cons, ← Nat.add_assoc] at hN ⊢
    refine (h u List.mem_cons_self st hi (L.refl st)).bind fun r st' hi' hs' hr => ?_
    have hrest : ∀ v ∈ us, ∀ {st₁}, L.Step st st₁ → ∀ st₂, L.Inv st₂ → L.Step st₁ st₂ →
        L.Gives (fun d => fieldsOf d v) st₂ (L.Offered (L.fields v)) :=
      fun v hv _ h₁ st₂ hi₂ h₂ => h v (List.mem_cons_of_mem u hv) st₂ hi₂ (L.trans h₁ h₂)
    have hm' := offered_stable _ _ _ _ hs' hm
    cases r with
    | none =>
      have hle : L.Offered (m + L.fields u) merged st' := fun fs he =>
        (hm' fs he).le (Nat.le_add_right _ _)
      exact ih (ha.later hs') hi' hle hN fun v hv => hrest v hv hs'
    | some fs =>
      have hfs := hr fs rfl
      have hstart : L.Holds st' m (merged.getD []) := by
        cases merged with
        | none => exact holds_nil m
        | some gs => exact hm' gs rfl
      have hc := hfs.cost
      refine (gives_mergeFields hx (ha.later hs') hi' hstart hfs.name hfs.type (by omega)).bind ?_
      intro gs st'' hi'' hs'' hgs
      refine ih (ha.later (L.trans hs' hs'')) hi'' ?_ hN fun v hv => hrest v hv (L.trans hs' hs'')
      rintro _ ⟨rfl⟩
      exact hgs.le (by omega)

theorem mapM_eq_some_iff {α β : Type} {f : α → Option β} {xs : List α} {ys : List β} :
    xs.mapM f = some ys ↔ List.Forall₂ (fun x y => f x = some y) xs ys := by
  rw [← List.mapM'_eq_mapM]
  induction xs generalizing ys with
  | nil => cases ys <;> simp
  | cons x xs ih => cases ys <;> simp [Option.bind_eq_some_iff, ih]

/-- The fields that go by the name of the given one. -/
def namesakes (others : List (List (Field Ty))) (f : Field Ty) : List (Field Ty) :=
  others.flatMap fun fs => (Field.find? fs f.name).toList

theorem sharedField_eq_some {others : List (List (Field Ty))} {f g : Field Ty}
    (h : Member.sharedField f others = some g) :
    g.name = f.name ∧ g.type = Ty.join (f.type :: (namesakes others f).map (·.type)) := by
  obtain ⟨gs, hgs, rfl⟩ := Option.map_eq_some_iff.mp h
  have hflat : gs = namesakes others f := by
    have hall := mapM_eq_some_iff.mp hgs
    clear h hgs
    induction hall with
    | nil => rfl
    | cons he _ ih => simp [namesakes, he, ih]
  exact ⟨rfl, by rw [hflat]⟩

theorem total_namesakes (cost : Ty → Nat) (h : Field.Apart fs) (others : List (List (Field Ty))) :
    (fs.map fun f => Field.total cost (namesakes others f)).sum ≤
      (others.map (Field.total cost)).sum := by
  induction others with
  | nil => simp [namesakes]
  | cons o os ih =>
    have hsplit : ∀ f, Field.total cost (namesakes (o :: os) f) =
        Field.total cost (Field.find? o f.name).toList + Field.total cost (namesakes os f) :=
      fun f => Field.total_append _ _
    have hfound : (fs.map fun f => Field.total cost (Field.find? o f.name).toList).sum =
        Field.total cost (fs.filterMap fun f => Field.find? o f.name) := by
      clear h ih
      induction fs with
      | nil => rfl
      | cons f fs ih => cases hf : Field.find? o f.name <;> simp [hf, ih]
    simp only [hsplit, List.sum_map_add, hfound, List.map_cons, List.sum_cons]
    exact Nat.add_le_add (Field.total_found h o) ih

theorem eq_map_some_of_mapM {α : Type} {rs : List (Option α)} {xs : List α}
    (h : rs.mapM id = some xs) : rs = xs.map some := by
  rw [← List.forall₂_eq_eq_eq, List.forall₂_map_right_iff]
  exact mapM_eq_some_iff.mp h

theorem names_shared_sublist (fs : List (Field Ty)) (others : List (List (Field Ty))) :
    ((fs.filterMap (Member.sharedField · others)).map (·.name)).Sublist (fs.map (·.name)) := by
  induction fs with
  | nil => exact .slnil
  | cons f fs ih =>
    cases hf : Member.sharedField f others with
    | none => simpa [hf] using ih.cons f.name
    | some g => simpa [hf, (sharedField_eq_some hf).1] using ih

theorem holds_shared {others : List (List (Field Ty))} (h : L.Holds st m fs)
    (ho : ∀ gs ∈ others, ∀ g ∈ gs, L.In st g.type) :
    L.Holds st (m + (others.map (Field.total L.cost)).sum)
      (fs.filterMap (Member.sharedField · others)) := by
  have hsake : ∀ f, ∀ g ∈ namesakes others f, L.In st g.type := by
    intro f g hg
    obtain ⟨gs, hgs, hf⟩ := List.mem_flatMap.mp hg
    exact ho gs hgs g (Field.find?_eq_some (Option.mem_toList.mp hf)).1
  have hjoin : ∀ f ∈ fs, ∀ g, Member.sharedField f others = some g →
      L.In st g.type ∧ L.cost g.type ≤ L.cost f.type + Field.total L.cost (namesakes others f) := by
    intro f hf g hg
    have hall : ∀ t ∈ f.type :: (namesakes others f).map (·.type), L.In st t :=
      List.forall_mem_cons.mpr ⟨h.type f hf, List.forall_mem_map.mpr (hsake f)⟩
    rw [(sharedField_eq_some hg).2]
    refine (L.join (List.cons_ne_nil _ _) hall).imp_right fun hc => ?_
    simpa [Field.total, Function.comp_def] using hc
  have htotal : Field.total L.cost (fs.filterMap (Member.sharedField · others)) ≤
      Field.total L.cost fs + (fs.map fun f => Field.total L.cost (namesakes others f)).sum := by
    clear h
    induction fs with
    | nil => simp
    | cons f fs ih =>
      have ih := ih fun e he => hjoin e (List.mem_cons_of_mem f he)
      cases hf : Member.sharedField f others with
      | none =>
        simp only [List.filterMap_cons, hf, Field.total_cons, List.map_cons, List.sum_cons]
        omega
      | some g =>
        have hg := (hjoin f List.mem_cons_self g hf).2
        simp only [List.filterMap_cons, hf, Field.total_cons, List.map_cons, List.sum_cons]
        omega
  refine ⟨h.apart.sublist (names_shared_sublist fs others), fun g hg => ?_, fun g hg => ?_, ?_⟩
  · obtain ⟨f, hf, hfg⟩ := List.mem_filterMap.mp hg
    exact (sharedField_eq_some hfg).1 ▸ h.name f hf
  · obtain ⟨f, hf, hfg⟩ := List.mem_filterMap.mp hg
    exact (hjoin f hf g hfg).1
  · have := total_namesakes L.cost h.apart others
    have := h.cost
    omega

/-- The fields that all members have cost no more than those of the members together. -/
theorem holds_sharedFields {ms : List Ty} {rs : List (Option (List (Field Ty)))}
    (h : List.Forall₂ (fun u r => L.Offered (L.fields u) r st) ms rs) :
    L.Holds st (ms.map L.fields).sum (Member.sharedFields rs) := by
  unfold Member.sharedFields
  split
  · exact holds_nil _
  · exact holds_nil _
  · rename_i first others hsome
    rw [eq_map_some_of_mapM hsome, List.map_cons] at h
    cases h with
    | @cons u _ us _ hu hus =>
      have hcost : (others.map (Field.total L.cost)).sum ≤ (us.map L.fields).sum ∧
          ∀ gs ∈ others, ∀ g ∈ gs, L.In st g.type := by
        clear hu hsome
        induction others generalizing us with
        | nil => cases hus; simp
        | cons o os ih =>
          cases hus with
          | @cons v _ vs _ hv hvs =>
            obtain ⟨hsum, hin⟩ := ih hvs
            have hov := (hv o rfl).cost
            simp only [List.map_cons, List.sum_cons]
            exact ⟨by omega, List.forall_mem_cons.mpr ⟨(hv o rfl).type, hin⟩⟩
      refine (holds_shared (hu first rfl) hcost.2).le ?_
      rw [List.map_cons, List.sum_cons]
      exact Nat.add_le_add_left hcost.1 _

/-- A depth that in the end leaves enough for a type and what its members are made of. -/
def Deep (L : Ledger ctx) (k : Nat) (t : Ty) : Prop :=
  ∃ bound, ∀ d, bound ≤ d → t.size + k ≤ L.depth d

theorem Deep.child {u : Ty} (h : L.Deep k t) (hu : u ∈ t.children) : L.Deep (k + 1) u := by
  obtain ⟨bound, hb⟩ := h
  refine ⟨bound, fun d hd => ?_⟩
  have := hb d hd
  have := Ty.size_lt_of_mem_children hu
  omega

/-- One step can be taken. -/
theorem Deep.step_iff {α : Type} {Post : α → CheckState σ → Prop} (h : L.Deep k t)
    (g : Nat → Nat → CheckM σ α) : L.Gives (fun d => g d (L.depth d - k)) st Post ↔
      L.Gives (fun d => g d (L.depth d - (k + 1) + 1)) st Post := by
  obtain ⟨bound, hb⟩ := h
  have hsub : ∀ d, bound ≤ d → L.depth d - (k + 1) + 1 = L.depth d - k := by
    intro d hd
    have := hb d hd
    have := t.size_pos
    omega
  exact ⟨Settles.congr fun d (hd : bound ≤ d) => by rw [hsub d hd],
    Settles.congr fun d (hd : bound ≤ d) => by rw [hsub d hd]⟩

theorem Deep.step {α : Type} {Post : α → CheckState σ → Prop} (h : L.Deep k t)
    (g : Nat → Nat → CheckM σ α) (hg : L.Gives (fun d => g d (L.depth d - (k + 1) + 1)) st Post) :
    L.Gives (fun d => g d (L.depth d - k)) st Post := (h.step_iff g).mpr hg

/-- What is known of the index that a type offers. -/
def Indexed (L : Ledger ctx) (n : Nat) (r : Option (Index Ty)) (st : CheckState σ) : Prop :=
  ∀ i, r = some i → L.Indexes ∧ L.In st i.value ∧ L.cost i.value ≤ n

theorem indexed_stable (n : Nat) (r : Option (Index Ty)) : L.Stable (L.Indexed n r) :=
  fun _ _ hs h i he => (h i he).imp_right (And.imp_left (L.in_stable _ _ _ hs))

/-- From a state on, the properties of a type of some kind are found. -/
structure Found (L : Ledger ctx) (st : CheckState σ) (k : Nat) (t : Ty) : Prop where
  fields : ∀ {st'}, L.Inv st' → L.Step st st' → L.In st' t →
    L.Gives (fun d => Member.fieldsOf ctx (L.ask d) (L.depth d - k) t) st' (L.Offered (L.fields t))
  index : ∀ {st'}, L.Inv st' → L.Step st st' → L.In st' t →
    L.Gives (fun d => Member.indexOf ctx (L.depth d - k) t) st' (L.Indexed (L.index t))

theorem found_object {i : Option (Index Ty)} {n : Option String} (hd : L.Deep k (.object fs i n)) :
    L.Found st k (.object fs i n) := by
  have hr : ctx.resolve (.object fs i n) = pure (.object fs i n) := L.resolve_self (by simp)
  refine ⟨fun hi _ ht => ?_, fun hi _ ht => ?_⟩
  · refine hd.step (fun d j => Member.fieldsOf ctx (L.ask d) j _) ?_
    simp only [Member.fieldsOf, hr, pure_bind]
    refine Frame.gives_pure hi ?_
    rintro _ ⟨rfl⟩
    exact ⟨(L.apart ht).1, (L.apart ht).2,
      fun f hf => L.child ht (Ty.field_mem_children hf),
      L.fields_object ht⟩
  · refine hd.step (fun _ j => Member.indexOf ctx j _) ?_
    simp only [Member.indexOf, hr, pure_bind]
    refine Frame.gives_pure hi ?_
    rintro j rfl
    exact ⟨L.indexes ht, L.child ht (Ty.value_mem_children rfl),
      L.index_object ht⟩

theorem found_union {ms : List Ty} (hd : L.Deep k (.union ms))
    (h : ∀ u ∈ ms, L.Found st (k + 1) u) : L.Found st k (.union ms) := by
  have hr : ctx.resolve (.union ms) = pure (.union ms) := L.resolve_self (by simp)
  refine ⟨fun hi hs ht => ?_, fun hi _ _ => ?_⟩
  · refine hd.step (fun d j => Member.fieldsOf ctx (L.ask d) j _) ?_
    simp only [Member.fieldsOf, hr, pure_bind]
    have hall := Frame.gives_mapM ms (fun u => offered_stable (L.fields u)) hi
      fun u hu st' hi' hs' => (h u hu).fields hi' (L.trans hs hs')
        (L.in_stable _ _ _ hs' (L.child ht hu))
    refine hall.bind fun rs st' hi' _ hrs => Frame.gives_pure hi' ?_
    rintro _ ⟨rfl⟩
    exact (holds_sharedFields hrs).le (L.fields_union ms)
  · refine hd.step (fun _ j => Member.indexOf ctx j _) ?_
    simp only [Member.indexOf, hr, pure_bind]
    refine Frame.gives_pure hi ?_
    rintro _ ⟨⟩

theorem found_inter {ms : List Ty} (ha : L.Answers N st) (hN : L.fields (.inter ms) ≤ N)
    (hd : L.Deep k (.inter ms)) (h : ∀ u ∈ ms, L.Found st (k + 1) u) :
    L.Found st k (.inter ms) := by
  have hr : ctx.resolve (.inter ms) = pure (.inter ms) := L.resolve_self (by simp)
  refine ⟨fun hi hs ht => ?_, fun hi hs ht => ?_⟩
  · refine hd.step (fun d j => Member.fieldsOf ctx (L.ask d) j _) ?_
    simp only [Member.fieldsOf, hr, pure_bind]
    have hsum := L.fields_inter ms
    have hnone : L.Offered 0 none st := by rintro _ ⟨⟩
    have hall := gives_mergeMembers (L.inters ht) (ha.later hs) hi
      (offered_stable _ _ _ _ hs hnone) (by omega)
      fun u hu st' hi' hs' => (h u hu).fields hi' (L.trans hs hs')
        (L.in_stable _ _ _ hs' (L.child ht hu))
    rw [Nat.zero_add] at hall
    exact hall.imp fun r st' _ _ hres fs he => (hres fs he).le hsum
  · refine hd.step (fun _ j => Member.indexOf ctx j _) ?_
    simp only [Member.indexOf, hr, pure_bind]
    have hall := Frame.gives_mapM ms (fun u => indexed_stable (L.index u)) hi
      fun u hu st' hi' hs' => (h u hu).index hi' (L.trans hs hs')
        (L.in_stable _ _ _ hs' (L.child ht hu))
    refine hall.bind fun rs st' hi' _ hrs => ?_
    split
    · rename_i i hone
      refine Frame.gives_pure hi' ?_
      rintro _ ⟨rfl⟩
      have hi : some i ∈ rs := by
        have := List.mem_singleton_self i
        rw [← hone, List.mem_filterMap] at this
        obtain ⟨r, hr, rfl⟩ := this
        exact hr
      obtain ⟨u, hu, hindexed⟩ := forall₂_mem_right hrs hi
      obtain ⟨hx, hIi, hc⟩ := hindexed i rfl
      exact ⟨hx, hIi, Nat.le_trans hc (L.index_inter hu)⟩
    · exact Frame.gives_pure hi' (by rintro _ ⟨⟩)

theorem found_bare (hn : ∀ n, t ≠ .ref n) (hd : L.Deep k t)
    (hf : ctx.resolve t = pure t → ∀ d j, Member.fieldsOf ctx (L.ask d) (j + 1) t = pure none)
    (hx : ctx.resolve t = pure t → ∀ j, Member.indexOf ctx (j + 1) t = pure none) :
    L.Found st k t := by
  have hr := L.resolve_self hn
  refine ⟨fun hi _ _ => ?_, fun hi _ _ => ?_⟩
  · refine hd.step (fun d j => Member.fieldsOf ctx (L.ask d) j t) ?_
    simp only [hf hr]
    exact Frame.gives_pure hi (by rintro _ ⟨⟩)
  · refine hd.step (fun _ j => Member.indexOf ctx j t) ?_
    simp only [hx hr]
    exact Frame.gives_pure hi (by rintro _ ⟨⟩)

/-- A reference offers what it stands for. -/
theorem found_ref {n : String} (hd : L.Deep k (.ref n))
    (h : ∀ {st'}, L.Inv st' → L.Step st st' → L.In st' (.ref n) →
      L.Gives (fun _ => ctx.resolve (.ref n)) st' fun t st'' => L.In st'' t ∧
        (∀ m, t ≠ .ref m) ∧ L.Found st'' k t ∧ L.fields t ≤ L.fields (.ref n) ∧
        L.index t ≤ L.index (.ref n)) : L.Found st k (.ref n) := by
  refine ⟨fun hi hs ht => ?_, fun hi hs ht => ?_⟩
  · refine hd.step (fun d j => Member.fieldsOf ctx (L.ask d) j (.ref n)) ?_
    simp only [Member.fieldsOf]
    refine (h hi hs ht).bind fun t st'' hi'' _ ⟨hIt, hnot, hfound, hle, _⟩ => ?_
    have hf := (hd.step_iff fun d j => Member.fieldsOf ctx (L.ask d) j t).mp
      (hfound.fields hi'' (L.refl st'') hIt)
    simp only [Member.fieldsOf, L.resolve_self hnot, pure_bind] at hf
    exact hf.imp fun r _ _ _ hr fs he => (hr fs he).le hle
  · refine hd.step (fun _ j => Member.indexOf ctx j (.ref n)) ?_
    simp only [Member.indexOf]
    refine (h hi hs ht).bind fun t st'' hi'' _ ⟨hIt, hnot, hfound, _, hle⟩ => ?_
    have hx := (hd.step_iff fun _ j => Member.indexOf ctx j t).mp
      (hfound.index hi'' (L.refl st'') hIt)
    simp only [Member.indexOf, L.resolve_self hnot, pure_bind] at hx
    refine hx.imp fun r _ _ _ hr i he => ?_
    obtain ⟨hone, hIi, hc⟩ := hr i he
    exact ⟨hone, hIi, Nat.le_trans hc hle⟩

/-- The types whose properties are found by looking at what they are made of, down to the
references on the way. -/
theorem found_of_refs {Q : Ty → Prop} (hQ : ∀ ms, Q (.union ms) ∨ Q (.inter ms) → ∀ u ∈ ms, Q u)
    (href : ∀ n k, Q (.ref n) → L.Found st k (.ref n)) (ha : L.Answers N st) (hq : Q t)
    (hN : L.fields t ≤ N) (hd : L.Deep k t) : L.Found st k t := by
  induction t using Ty.child_induction generalizing k with
  | step t ih =>
    have hle : ∀ ms : List Ty, (ms.map L.fields).sum ≤ L.fields t → ∀ u ∈ ms, L.fields u ≤ N :=
      fun ms hsum u hu => by
        have := List.le_sum_of_mem (List.mem_map.mpr ⟨u, hu, rfl⟩ : L.fields u ∈ ms.map L.fields)
        omega
    cases t with
    | ref n => exact href n k hq
    | object fs i n => exact found_object hd
    | union ms =>
      exact found_union hd fun u hu => ih u hu (hQ ms (.inl hq) u hu)
        (hle ms (L.fields_union ms) u hu) (hd.child hu)
    | inter ms =>
      exact found_inter ha hN hd fun u hu => ih u hu (hQ ms (.inr hq) u hu)
        (hle ms (L.fields_inter ms) u hu) (hd.child hu)
    | _ =>
      refine found_bare (by simp) hd (fun hr d j => ?_) fun hr j => ?_
      · simp only [Member.fieldsOf, hr, pure_bind]
      · simp only [Member.indexOf, hr, pure_bind]

theorem gives_fittingIndex {r : Option (Index Ty)} (ha : L.Answers N st) (hi : L.Inv st)
    (hf : L.Holds st m fs) (hx : L.Indexed k r st) (hN : m + k ≤ N) :
    L.Gives (fun d => Member.fittingIndex (L.ask d) fs r) st fun r' st' =>
      L.Holds st' m fs ∧ L.Indexed k r' st' := by
  cases r with
  | none => exact Frame.gives_pure hi ⟨hf, hx⟩
  | some i =>
    obtain ⟨-, hIi, hci⟩ := hx i rfl
    have hmis := Frame.judges_firstMisfit (F := L.toFrame) (f := fun d g => L.ask d g.type i.value)
      (Y := fun _ _ => True) (N := fun _ => True) fs (fun _ _ _ _ => id) hi ?_
    · refine Frame.Gives.bind hmis fun v st' hi' hs' _ => ?_
      cases v with
      | none => exact Frame.gives_pure hi' ⟨hf.later hs', indexed_stable _ _ _ _ hs' hx⟩
      | some _ => exact Frame.gives_pure hi' ⟨hf.later hs', by rintro _ ⟨⟩⟩
    · intro g hg st' hi' hs'
      have hgc := Field.cost_le_total L.cost hg
      have hfc := hf.cost
      have hans := ha hi' hs' (L.in_stable _ _ _ hs' (hf.type g hg)) (L.in_stable _ _ _ hs' hIi)
        (by omega)
      exact hans.imp fun _ _ _ _ _ => ⟨fun _ => trivial, fun _ => trivial⟩

/-- An intersection as one object, which is built from what was collected or refused. -/
theorem gives_combinedObject (ha : L.Answers N st) (hi : L.Inv st) (ht : L.In st t)
    (hf : L.Found st 0 t) (hN : L.fields t + L.index t ≤ N)
    (hobject : ∀ {st' : CheckState σ} {fs : List (Field Ty)} {i : Option (Index Ty)},
      L.Inv st' → L.Step st st' → L.Holds st' (L.fields t) fs → L.Indexed (L.index t) i st' →
      ctx.objectOf fs i = .ok (.object fs i none) ∨ ∃ e, ctx.objectOf fs i = .error e ∧ L.Err e) :
    L.Gives (fun d => Member.combinedObject ctx (L.ask d) (L.depth d) t) st fun r st' =>
      ∀ shape, r = some shape → ∃ fs i, shape = .object fs i none ∧
        L.Holds st' (L.fields t) fs ∧ L.Indexed (L.index t) i st' := by
  refine (hf.fields hi (L.refl st) ht).bind fun r st₁ hi₁ hs₁ hr => ?_
  cases r with
  | none => exact Frame.gives_pure hi₁ (by rintro _ ⟨⟩)
  | some fs =>
    have hindex := hf.index hi₁ hs₁ (L.in_stable _ _ _ hs₁ ht)
    refine hindex.bind fun x st₂ hi₂ hs₂ hx => ?_
    have hs₁₂ := L.trans hs₁ hs₂
    refine (gives_fittingIndex (ha.later hs₁₂) hi₂ ((hr fs rfl).later hs₂) hx hN).bind ?_
    intro i st₃ hi₃ hs₃ ⟨hfs, hxi⟩
    rcases hobject hi₃ (L.trans hs₁₂ hs₃) hfs hxi with ho | ⟨e, ho, he⟩ <;> rw [ho]
    · refine settles_pure (a := some (Ty.object fs i none)) ⟨hi₃, L.refl st₃, ?_⟩
      rintro _ ⟨rfl⟩
      exact ⟨fs, i, rfl, hfs, hxi⟩
    · exact settles_throw he

end Ledger
end ShapeCheck
