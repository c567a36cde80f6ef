import ShapeCheck.Fit.Rules
import ShapeCheck.Proofs.Fit.Judge
import ShapeCheck.Proofs.Fit.Related

/-! The rules as they run: from the verdicts on the parts of two types to a verdict on the types,
for types that are no intersections. -/

namespace ShapeCheck

/-- Of a union every member is asked about. -/
theorem Frame.judges_fromUnion {σ : Type} {F : Frame (CheckState σ)} {st : CheckState σ}
    {ask : Nat → Ask σ} {s t : Ty} {ms : List Ty} {Y : Ty → CheckState σ → Prop} {N : Ty → Prop}
    (hY : ∀ m, F.Stable (Y m)) (hi : F.Inv st)
    (h : ∀ m ∈ ms, ∀ st', F.Inv st' → F.Step st st' →
      F.Judges (fun d => ask d m t) st' (Y m) (N m)) :
    F.Judges (fun d => Rule.fromUnion (ask d) s ms t) st (fun st' => ∀ m ∈ ms, Y m st')
      (∃ m ∈ ms, N m) := by
  refine Frame.judges_firstMisfit ms hY hi fun m hm st' hi' hs' => ?_
  refine (h m hm st' hi' hs').bind ?_ ?_
  · exact fun st'' hi'' _ h => Frame.judges_yes hi'' h
  · intro found st'' hi'' _ h
    by_cases hp : found.path.isEmpty
    · simp only [hp]
      exact Frame.judges_no hi'' h
    · simp only [hp]
      exact Frame.judges_no hi'' h

/-- Questions that are put in some surroundings: the types they may be about, what a yes and a no
to one of them say, and the frame in which they are answered. -/
structure Inquiry {σ : Type} (ctx : Surroundings σ) (rd : Reading) extends
    Frame (CheckState σ) where
  ask : Nat → Ask σ
  Turns : CheckState σ → Ty → Prop
  Yes : CheckState σ → Ty → Ty → Prop
  No : Ty → Ty → Prop
  turns_stable : ∀ t, toFrame.Stable (Turns · t)
  yes_stable : ∀ s t, toFrame.Stable (Yes · s t)
  child : ∀ {st : CheckState σ} {t u : Ty}, Turns st t → u ∈ t.children → Turns st u
  callable : ∀ {st : CheckState σ} {ss : List (Signature Ty)} {r : Option Ty},
    Turns st (.func ss r) ∨ Turns st (.ctor ss) → ss ≠ []
  variance : rd.variance = ctx.variance

namespace Inquiry
variable {σ : Type} {ctx : Surroundings σ} {rd : Reading} (I : Inquiry ctx rd)

/-- The second type does as well as the first wherever that was asked about. -/
structure Alike (e e' : Ty) : Prop where
  yes_left : ∀ {st : CheckState σ} {a : Ty}, I.Yes st e a → I.Yes st e' a
  yes_right : ∀ {st : CheckState σ} {a : Ty}, I.Yes st a e → I.Yes st a e'
  no_left : ∀ {a : Ty}, I.No e a → I.No e' a
  no_right : ∀ {a : Ty}, I.No a e → I.No a e'

/-- From a state on, every question about types that turn up is answered. -/
structure Open (st : CheckState σ) : Prop where
  judged : ∀ {st' : CheckState σ} {a b : Ty}, I.Inv st' → I.Step st st' → I.Turns st' a →
    I.Turns st' b → I.Judges (fun d => I.ask d a b) st' (I.Yes · a b) (I.No a b)
  element : ∀ {st' : CheckState σ} {t : Ty}, I.Inv st' → I.Step st st' → I.Turns st' t →
    I.Gives (fun _ => Rule.elementOf ctx t) st' fun e st'' =>
      I.Turns st'' e ∧ I.Alike e (rd.element t)

variable {I} {st : CheckState σ} {s t : Ty}

/-- What was not answered by no. -/
abbrev Spared (I : Inquiry ctx rd) (a b : Ty) : Prop := ¬ I.No a b

theorem Open.later {st' : CheckState σ} (ho : I.Open st) (h : I.Step st st') : I.Open st' where
  judged hi hs := ho.judged hi (I.trans h hs)
  element hi hs := ho.element hi (I.trans h hs)

theorem Open.now {a b : Ty} (ho : I.Open st) (hi : I.Inv st) (ha : I.Turns st a)
    (hb : I.Turns st b) : I.Judges (fun d => I.ask d a b) st (I.Yes · a b) (I.No a b) :=
  ho.judged hi (I.refl st) ha hb

/-- What turns up when a type is taken apart, and callables have a signature. -/
structure Taken (I : Inquiry ctx rd) (st : CheckState σ) (t : Ty) : Prop where
  child : ∀ u ∈ t.children, I.Turns st u
  callable : ∀ {ss : List (Signature Ty)} {r : Option Ty}, t = .func ss r ∨ t = .ctor ss → ss ≠ []

theorem taken (h : I.Turns st t) : I.Taken st t where
  child _ hu := I.child h hu
  callable {_ r} he := by
    rcases he with rfl | rfl
    · exact I.callable (.inl h)
    · exact I.callable (r := r) (.inr h)

theorem Open.fromUnion {ms : List Ty} (ho : I.Open st) (hi : I.Inv st) (hs : I.Turns st (.union ms))
    (ht : I.Turns st t) :
    I.Judges (fun d => Rule.fromUnion (I.ask d) s ms t) st (fun st' => ∀ m ∈ ms, I.Yes st' m t)
      (∃ m ∈ ms, I.No m t) :=
  Frame.judges_fromUnion (fun m => I.yes_stable m t) hi fun _ hm _ hi' hs' =>
    ho.judged hi' hs' (I.turns_stable _ _ _ hs' (I.child hs hm)) (I.turns_stable _ _ _ hs' ht)

theorem Open.toSome {ms : List Ty} (ho : I.Open st) (hi : I.Inv st) (hs : I.Turns st s)
    (ht : I.Turns st (.union ms)) :
    I.Judges (fun d => Rule.toSome (I.ask d) s t ms) st (fun st' => ∃ m ∈ ms, I.Yes st' s m)
      (∀ m ∈ ms, I.No s m) := by
  refine Frame.judges_someFits hi fun m hm st' hi' hs' => ?_
  exact ho.judged hi' hs' (I.turns_stable _ _ _ hs' hs) (I.turns_stable _ _ _ hs' (I.child ht hm))

theorem Open.pointwise {pairs : List (Ty × Ty)} (ho : I.Open st) (hi : I.Inv st)
    (hp : ∀ p ∈ pairs, I.Turns st p.1 ∧ I.Turns st p.2) :
    I.Judges (fun d => Rule.pointwise (I.ask d) pairs) st
      (fun st' => ∀ p ∈ pairs, I.Yes st' p.1 p.2) (∃ p ∈ pairs, I.No p.1 p.2) := by
  have hz : ∀ x ∈ pairs.zipIdx, x.1 ∈ pairs := fun x hx => List.fst_mem_of_mem_zipIdx hx
  have h := Frame.judges_firstMisfit (F := I.toFrame)
    (f := fun d x => CheckM.within (.position x.2) (I.ask d x.1.1 x.1.2))
    (Y := fun x st' => I.Yes st' x.1.1 x.1.2) (N := fun x => I.No x.1.1 x.1.2)
    pairs.zipIdx (fun x => I.yes_stable x.1.1 x.1.2) hi fun x hx st' hi' hs' => by
      have hx' := hp x.1 (hz x hx)
      exact (ho.judged hi' hs' (I.turns_stable _ _ _ hs' hx'.1)
        (I.turns_stable _ _ _ hs' hx'.2)).within _
  refine h.imp (fun st' hy p hp => ?_) ?_
  · obtain ⟨i, hi, rfl⟩ := List.mem_iff_getElem.mp hp
    exact hy (pairs[i], i) (List.mem_zipIdx_iff_getElem?.mpr (by simp [hi]))
  · rintro ⟨x, hx, hn⟩
    exact ⟨x.1, hz x hx, hn⟩

/-- Two types on which no immediate verdict is passed. -/
structure Undecided (s t : Ty) : Prop where
  differ : ¬ s.same t
  toAny : t ≠ Ty.any
  fromNever : s ≠ Ty.never
  toNever : t ≠ Ty.never
  fromAny : s ≠ Ty.any
  toVoid : ¬ (s = Ty.undefined ∧ t = Ty.void)
  scalars : ¬ (Rule.isScalar s ∧ Rule.isScalar t)

theorem undecided_of_immediate (h : Rule.immediate s t = none) : Undecided s t := by
  unfold Rule.immediate at h
  split at h
  · cases h
  rename_i h₁
  split at h
  · cases h
  rename_i h₂
  split at h
  · cases h
  rename_i h₃
  split at h
  · cases h
  rename_i h₄
  split at h
  · cases h
  rename_i h₅
  refine ⟨?_, ?_, ?_, ?_, ?_, ?_, ?_⟩
  · exact fun he => h₁ (by simp [he])
  · rintro rfl; exact h₁ (by simp [Ty.isAny])
  · rintro rfl; exact h₁ (by simp [Ty.isNever])
  · rintro rfl; exact h₂ rfl
  · rintro rfl; exact h₃ rfl
  · rintro ⟨rfl, rfl⟩; exact h₄ rfl
  · exact fun ⟨hs, ht⟩ => h₅ (by simp [hs, ht])

theorem isAny_iff : t.isAny ↔ t = Ty.any := by
  unfold Ty.isAny
  split <;> simp_all

theorem isNever_iff : t.isNever ↔ t = Ty.never := by
  unfold Ty.isNever
  split <;> simp_all

theorem same_prim_right {k : Prim} : t.same (.prim k) ↔ t = .prim k := by
  cases t <;> simp [Ty.same]

/-- An immediate verdict is what the rules say, whatever holds of the parts. -/
theorem immediate_fits {R : Ty → Ty → Prop} (h : Rule.immediate s t = some none) :
    rd.FitsBy R s t := by
  unfold Rule.immediate at h
  split at h
  · rename_i h₁
    simp only [Bool.or_eq_true, isAny_iff, isNever_iff] at h₁
    rcases h₁ with (he | rfl) | rfl
    · exact .equal he
    · exact .toAny s
    · exact .fromNever t
  split at h
  · cases h
  rename_i hn
  split at h
  · rename_i ha
    cases isAny_iff.mp ha
    exact .fromAny fun he => hn (isNever_iff.mpr he)
  split at h
  · rename_i hv
    simp only [Bool.and_eq_true, same_prim_right] at hv
    obtain ⟨rfl, rfl⟩ := hv
    exact .undefinedToVoid
  split at h
  · split at h
    · rename_i hw
      unfold Rule.widensTo at hw
      split at hw
      · cases of_decide_eq_true hw
        exact .literalToPrim _
      · cases hw
    · cases h
  · cases h

theorem immediate_unfit {R : Ty → Ty → Prop} {m : Mismatch}
    (h : Rule.immediate s t = some (some m)) : ¬ rd.FitsBy R s t := by
  unfold Rule.immediate at h
  split at h
  · cases h
  rename_i h₁
  simp only [Bool.or_eq_true, isAny_iff, isNever_iff, not_or] at h₁
  obtain ⟨⟨hd, hta⟩, hsn⟩ := h₁
  intro hf
  split at h
  · rename_i hn
    have ht := isNever_iff.mp hn
    cases hf with
    | equal he => exact hd he
    | fromNever => exact hsn rfl
    | fromAny hn | fromUnion hn => exact hn ht
    | literalToPrim l => cases l <;> cases ht
    | _ => cases ht
  split at h
  · cases h
  rename_i hsa
  split at h
  · cases h
  rename_i hv
  split at h
  · rename_i hsc
    split at h
    · cases h
    · rename_i hw
      cases hf with
      | equal he => exact hd he
      | toAny => exact hta rfl
      | fromNever => exact hsn rfl
      | fromAny => exact hsa rfl
      | undefinedToVoid => exact hv rfl
      | literalToPrim l => exact hw (by simp [Rule.widensTo])
      | _ => simp [Rule.isScalar] at hsc
  · cases h

/-- The shapes for which there is a rule that compares their parts. -/
def Comparable : Ty → Ty → Prop
  | .array _, .array _ | .tuple _, .array _ | .tuple _, .tuple _ | .object _ _ _, .object _ _ _
  | .func _ _, .func _ _ | .ctor _, .ctor _ => True
  | _, _ => False

theorem Undecided.not_fits {R : Ty → Ty → Prop} (h : Undecided s t) (hs : ∀ ms, s ≠ .union ms)
    (ht : ∀ ms, t ≠ .union ms) (hc : ¬ Comparable s t) : ¬ rd.FitsBy R s t := by
  intro hf
  cases hf with
  | equal he => exact h.differ he
  | toAny => exact h.toAny rfl
  | fromNever => exact h.fromNever rfl
  | fromAny => exact h.fromAny rfl
  | undefinedToVoid => exact h.toVoid ⟨rfl, rfl⟩
  | literalToPrim l => exact h.scalars ⟨rfl, rfl⟩
  | fromUnion => exact hs _ rfl
  | toUnion => exact ht _ rfl
  | _ => exact hc trivial

theorem Open.toArray {e : Ty} (ho : I.Open st) (hi : I.Inv st) (hs : I.Taken st s)
    (ht : I.Taken st (.array e)) (h : Undecided s (.array e)) (hu : ∀ ms, s ≠ .union ms) :
    I.Judges (fun d => Rule.toArray (I.ask d) s t e) st
      (fun st' => rd.FitsBy (I.Yes st') s (.array e)) (¬ rd.FitsBy I.Spared s (.array e)) := by
  have he := ht.child e (Ty.element_mem_children _)
  cases s with
  | array a =>
    have ha := hs.child a (Ty.element_mem_children _)
    refine ((ho.now hi ha he).within _).imp (fun _ => .arrays) fun hn hf => ?_
    cases hf with
    | equal he => exact h.differ he
    | arrays hab => exact hab hn
  | tuple as =>
    refine (ho.pointwise hi ?_).imp ?_ ?_
    · intro p hp
      obtain ⟨a, ha, rfl⟩ := List.mem_map.mp hp
      exact ⟨hs.child a ha, he⟩
    · exact fun st' hy => .tupleToArray fun a ha => hy _ (List.mem_map.mpr ⟨a, ha, rfl⟩)
    · rintro ⟨p, hp, hn⟩ hf
      obtain ⟨a, ha, rfl⟩ := List.mem_map.mp hp
      cases hf with
      | equal he => exact h.differ he
      | tupleToArray hall => exact hall a ha hn
  | _ => exact Frame.judges_no hi (h.not_fits hu (by simp) id)

theorem Open.toTuple {es : List Ty} (ho : I.Open st) (hi : I.Inv st) (hs : I.Taken st s)
    (ht : I.Taken st (.tuple es)) (h : Undecided s (.tuple es)) (hu : ∀ ms, s ≠ .union ms) :
    I.Judges (fun d => Rule.toTuple (I.ask d) s t es) st
      (fun st' => rd.FitsBy (I.Yes st') s (.tuple es)) (¬ rd.FitsBy I.Spared s (.tuple es)) := by
  cases s with
  | tuple as =>
    by_cases hl : as.length = es.length
    · simp only [Rule.toTuple, hl, if_true]
      refine (ho.pointwise hi ?_).imp ?_ ?_
      · intro p hp
        exact ⟨hs.child _ (List.of_mem_zip hp).1, ht.child _ (List.of_mem_zip hp).2⟩
      · exact fun st' hy => .tuples (List.forall₂_iff_zip.mpr ⟨hl, fun {a b} hab => hy (a, b) hab⟩)
      · rintro ⟨p, hp, hn⟩ hf
        cases hf with
        | equal he => exact h.differ he
        | tuples hall => exact (List.forall₂_iff_zip.mp hall).2 hp hn
    · simp only [Rule.toTuple, hl, if_false]
      refine Frame.judges_no hi fun hf => ?_
      cases hf with
      | equal he => exact h.differ he
      | tuples hall => exact hl hall.length_eq
  | _ => exact Frame.judges_no hi (h.not_fits hu (by simp) id)

theorem Open.wantedField {fs : List (Field Ty)} {g : Field Ty} (ho : I.Open st) (hi : I.Inv st)
    (hs : ∀ f ∈ fs, I.Turns st f.type) (hg : I.Turns st g.type) :
    I.Judges (fun d => Rule.wantedField (I.ask d) s t fs g) st
      (fun st' => Reading.FieldFits (I.Yes st') fs g) (¬ Reading.FieldFits I.Spared fs g) := by
  unfold Rule.wantedField Reading.FieldFits
  cases hf : Field.find? fs g.name with
  | none =>
    cases ho : g.optional with
    | true => exact Frame.judges_yes hi rfl
    | false => exact Frame.judges_no hi nofun
  | some f =>
    by_cases hm : f.optional = true ∧ g.optional = false
    · simp only [hm, Bool.not_false, Bool.and_true, if_true]
      exact Frame.judges_no hi fun hfit => by simp at hfit
    · have ho' : f.optional = true → g.optional = true := by simpa using hm
      have hc : (f.optional && !g.optional) = false := by simpa using ho'
      simp only [hc, Bool.false_eq_true, if_false]
      refine ((ho.now hi (hs f (Field.mem_of_find? hf)) hg).within _).imp ?_ ?_
      · exact fun st' hy => ⟨ho', hy⟩
      · exact fun hn hfit => hfit.2 hn

theorem Open.underIndex {a v : Ty} (ho : I.Open st) (segment : Segment) (hi : I.Inv st)
    (ha : I.Turns st a) (hv : I.Turns st v) :
    I.Judges (fun d => Rule.underIndex (I.ask d) v a segment) st (I.Yes · a v) (I.No a v) :=
  (ho.now hi ha hv).bind (fun _ hi' _ h => Frame.judges_yes hi' h)
    fun _ _ hi' _ h => Frame.judges_no hi' h

theorem Open.indexed {fs : List (Field Ty)} {own wanted : Option (Index Ty)} (ho : I.Open st)
    (hi : I.Inv st) (hs : ∀ f ∈ fs, I.Turns st f.type)
    (hown : ∀ i, own = some i → I.Turns st i.value)
    (hw : ∀ i, wanted = some i → I.Turns st i.value) :
    I.Judges (fun d => Rule.indexed (I.ask d) fs own wanted) st
      (fun st' => Reading.IndexFits (I.Yes st') fs own wanted)
      (¬ Reading.IndexFits I.Spared fs own wanted) := by
  cases wanted with
  | none => exact Frame.judges_yes hi nofun
  | some index =>
    have hv := hw index rfl
    have hfirst := Frame.judges_firstMisfit (F := I.toFrame)
      (f := fun d f => Rule.underIndex (I.ask d) index.value f.type (.field f.name))
      fs (fun f => I.yes_stable f.type index.value) hi fun f hf st' hi' hst' =>
        (ho.later hst').underIndex _ hi' (I.turns_stable _ _ _ hst' (hs f hf))
          (I.turns_stable _ _ _ hst' hv)
    refine hfirst.bind ?_ ?_
    · intro st' hi' hst' hy
      cases own with
      | none =>
        refine Frame.judges_yes hi' fun i hii => ?_
        cases hii
        exact ⟨hy, nofun⟩
      | some o =>
        have hov := I.turns_stable _ _ _ hst' (hown o rfl)
        have hu := (ho.later hst').underIndex .key hi' hov (I.turns_stable _ _ _ hst' hv)
        refine Frame.Gives.imp hu fun v st'' _ hs'' hv => ⟨fun he i hii => ?_, fun he hfit => ?_⟩
        · cases hii
          refine ⟨fun f hf => I.yes_stable _ _ _ _ hs'' (hy f hf), fun o' ho' => ?_⟩
          cases ho'
          exact hv.1 he
        · exact (hfit index rfl).2 o rfl (hv.2 he)
    · rintro m st' hi' - ⟨f, hf, hn⟩
      exact Frame.judges_no hi' fun hfit => (hfit index rfl).1 f hf hn

theorem Open.toObject {gs : List (Field Ty)} {wanted : Option (Index Ty)} {n : Option String}
    (ho : I.Open st) (hi : I.Inv st) (hs : I.Taken st s) (ht : I.Taken st (.object gs wanted n))
    (h : Undecided s (.object gs wanted n)) (hu : ∀ ms, s ≠ .union ms) :
    I.Judges (fun d => Rule.toObject (I.ask d) s t gs wanted) st
      (fun st' => rd.FitsBy (I.Yes st') s (.object gs wanted n))
      (¬ rd.FitsBy I.Spared s (.object gs wanted n)) := by
  cases s with
  | object fs own m =>
    have hfs : ∀ f ∈ fs, I.Turns st f.type := fun f hf =>
      hs.child _ (Ty.field_mem_children hf)
    have hgs : ∀ g ∈ gs, I.Turns st g.type := fun g hg =>
      ht.child _ (Ty.field_mem_children hg)
    have hown : ∀ i, own = some i → I.Turns st i.value := fun i hi =>
      hs.child _ (Ty.value_mem_children hi)
    have hwanted : ∀ i, wanted = some i → I.Turns st i.value := fun i hi =>
      ht.child _ (Ty.value_mem_children hi)
    have hstable : ∀ g, I.toFrame.Stable fun st' => Reading.FieldFits (I.Yes st') fs g :=
      fun g st' st'' hs' hf => hf.imp fun f _ => I.yes_stable _ _ _ _ hs'
    have hfields := Frame.judges_firstMisfit
      (f := fun d => Rule.wantedField (I.ask d) (.object fs own m) t fs) gs hstable hi
      fun g hg st' hi' hs' => (ho.later hs').wantedField hi'
        (fun f hf => I.turns_stable _ _ _ hs' (hfs f hf)) (I.turns_stable _ _ _ hs' (hgs g hg))
    refine hfields.bind ?_ ?_
    · intro st' hi' hs' hy
      have hindex := (ho.later hs').indexed hi' (fun f hf => I.turns_stable _ _ _ hs' (hfs f hf))
        (fun i hi => I.turns_stable _ _ _ hs' (hown i hi))
        (fun i hi => I.turns_stable _ _ _ hs' (hwanted i hi))
      refine Frame.Gives.imp hindex fun v st'' _ hs'' hv => ⟨fun he => ?_, fun he hf => ?_⟩
      · exact .objects (fun g hg => hstable g _ _ hs'' (hy g hg)) (hv.1 he)
      · cases hf with
        | equal he => exact h.differ he
        | objects _ hfit => exact hv.2 he hfit
    · rintro found st' hi' - ⟨g, hg, hn⟩
      refine Frame.judges_no hi' fun hf => ?_
      cases hf with
      | equal he => exact h.differ he
      | objects hfit _ => exact hn (hfit g hg)
  | _ => exact Frame.judges_no hi (h.not_fits hu (by simp) id)

theorem Open.parameter {p q : Ty} (ho : I.Open st) (hi : I.Inv st) (hp : I.Turns st p)
    (hq : I.Turns st q) :
    I.Judges (fun d => Rule.parameter ctx (I.ask d) p q) st
      (fun st' => rd.ParamFits (I.Yes st') p q) (¬ rd.ParamFits I.Spared p q) := by
  refine (ho.now hi hp hq).bind (fun st' hi' _ h => Frame.judges_yes hi' (.inl h)) ?_
  intro m st' hi' hs' hn
  cases hv : ctx.variance with
  | contravariant =>
    refine Frame.judges_no hi' ?_
    rintro (hf | ⟨hb, _⟩)
    · exact hf hn
    · rw [I.variance, hv] at hb
      cases hb
  | bivariant =>
    have hback := (ho.later hs').now hi' (I.turns_stable _ _ _ hs' hq) (I.turns_stable _ _ _ hs' hp)
    refine hback.bind ?_ ?_
    · exact fun st'' hi'' _ h => Frame.judges_yes hi'' (.inr ⟨I.variance.trans hv, h⟩)
    · intro m' st'' hi'' _ hn'
      refine Frame.judges_no hi'' ?_
      rintro (hf | ⟨_, hf⟩)
      · exact hf hn
      · exact hf hn'

theorem paramFits_stable (p q : Ty) :
    I.toFrame.Stable fun st' => rd.ParamFits (I.Yes st') p q :=
  fun _ _ hs h => h.imp (I.yes_stable _ _ _ _ hs) (I.yes_stable _ _ _ _ hs)

theorem Alike.paramFits_right {e e' p : Ty} (h : I.Alike e e') {st : CheckState σ}
    (hf : rd.ParamFits (I.Yes st) p e) : rd.ParamFits (I.Yes st) p e' := by
  rcases hf with hf | ⟨hv, hf⟩
  · exact .inl (h.yes_right hf)
  · exact .inr ⟨hv, h.yes_left hf⟩

theorem Alike.paramFits_left {e e' p : Ty} (h : I.Alike e e') {st : CheckState σ}
    (hf : rd.ParamFits (I.Yes st) e p) : rd.ParamFits (I.Yes st) e' p := by
  rcases hf with hf | ⟨hv, hf⟩
  · exact .inl (h.yes_left hf)
  · exact .inr ⟨hv, h.yes_right hf⟩

theorem Alike.spared_right {e e' p : Ty} (h : I.Alike e e') (hf : rd.ParamFits I.Spared p e') :
    rd.ParamFits I.Spared p e := by
  rcases hf with hf | ⟨hv, hf⟩
  · exact .inl fun hn => hf (h.no_right hn)
  · exact .inr ⟨hv, fun hn => hf (h.no_left hn)⟩

theorem Alike.spared_left {e e' p : Ty} (h : I.Alike e e') (hf : rd.ParamFits I.Spared e' p) :
    rd.ParamFits I.Spared e p := by
  rcases hf with hf | ⟨hv, hf⟩
  · exact .inl fun hn => hf (h.no_left hn)
  · exact .inr ⟨hv, fun hn => hf (h.no_right hn)⟩

theorem Open.provided (ho : I.Open st) (rest : Option (Param Ty)) (ps qs : List (Param Ty))
    (hi : I.Inv st) (hr : ∀ r, rest = some r → I.Turns st r.type)
    (hp : ∀ p ∈ ps, I.Turns st p.type) (hq : ∀ q ∈ qs, I.Turns st q.type) :
    I.Judges (fun d => Rule.provided ctx (I.ask d) rest ps qs) st
      (fun st' => ∀ i p a, ps[i]? = some p → rd.acceptedBy rest qs i = some a →
        rd.ParamFits (I.Yes st') p.type a)
      (∃ i p a, ps[i]? = some p ∧ rd.acceptedBy rest qs i = some a ∧
        ¬ rd.ParamFits I.Spared p.type a) := by
  induction ps generalizing qs st with
  | nil => exact Frame.judges_yes hi fun i p a h => by simp at h
  | cons p ps ih =>
    have hr' : ∀ {st'}, I.Step st st' → ∀ r, rest = some r → I.Turns st' r.type :=
      fun hs r he => I.turns_stable _ _ _ hs (hr r he)
    have hp' : ∀ {st'}, I.Step st st' → ∀ p ∈ ps, I.Turns st' p.type :=
      fun hs p hm => I.turns_stable _ _ _ hs (hp p (List.mem_cons_of_mem _ hm))
    have hpp := hp p List.mem_cons_self
    cases qs with
    | cons q qs =>
      have hq' : ∀ {st'}, I.Step st st' → ∀ q ∈ qs, I.Turns st' q.type :=
        fun hs q hm => I.turns_stable _ _ _ hs (hq q (List.mem_cons_of_mem _ hm))
      refine ((ho.parameter hi hpp (hq q List.mem_cons_self)).within _).bind ?_ ?_
      · intro st' hi' hs' hy
        refine Frame.Gives.imp (ih (ho.later hs') qs hi' (hr' hs') (hp' hs') (hq' hs')) ?_
        intro v st'' _ hs'' hv
        refine ⟨fun he i p' a hp' ha => ?_, fun he => ?_⟩
        · cases i with
          | zero =>
            cases hp'
            cases ha
            exact paramFits_stable _ _ _ _ hs'' hy
          | succ i => exact hv.1 he i p' a hp' ha
        · obtain ⟨i, p', a, hp', ha, hn⟩ := hv.2 he
          exact ⟨i + 1, p', a, hp', ha, hn⟩
      · exact fun m st' hi' _ hn => Frame.judges_no hi' ⟨0, p, q.type, rfl, rfl, hn⟩
    | nil =>
      cases rest with
      | none =>
        refine Frame.Gives.imp (ih ho [] hi hr (hp' (I.refl st)) hq) fun v st' _ _ hv => ?_
        refine ⟨fun _ i p' a _ ha => ?_, fun he => ?_⟩
        · cases ha
        · obtain ⟨i, p', a, _, ha, _⟩ := hv.2 he
          cases ha
      | some r =>
        refine (ho.element hi (I.refl st) (hr r rfl)).bind fun e st₁ hi₁ hs₁ he => ?_
        have ho₁ := ho.later hs₁
        refine ((ho₁.parameter hi₁ (I.turns_stable _ _ _ hs₁ hpp) he.1).within _).bind ?_ ?_
        · intro st' hi' hs' hy
          have hs := I.trans hs₁ hs'
          refine Frame.Gives.imp (ih (ho.later hs) [] hi' (hr' hs) (hp' hs) nofun) ?_
          intro v st'' _ hs'' hv
          refine ⟨fun hve i p' a hp' ha => ?_, fun hve => ?_⟩
          · cases i with
            | zero =>
              cases hp'
              cases ha
              exact paramFits_stable _ _ _ _ hs'' (he.2.paramFits_right hy)
            | succ i => exact hv.1 hve i p' a hp' ha
          · obtain ⟨i, p', a, hp', ha, hn⟩ := hv.2 hve
            exact ⟨i + 1, p', a, hp', ha, hn⟩
        · intro m st' hi' _ hn
          exact Frame.judges_no hi'
            ⟨0, p, rd.element r.type, rfl, rfl, fun hf => hn (he.2.spared_right hf)⟩

/-- What is left of a signature once the arguments that are given one by one are accepted. -/
def RestFits (rd : Reading) (R : Ty → Ty → Prop) (source target : Signature Ty) : Prop :=
  (∀ q ∈ source.positional.drop target.positional.length,
    match target.rest? with
    | some r => rd.ParamFits R (rd.element r.type) q.type
    | none => q.optional = true) ∧
  ∀ r own, target.rest? = some r → source.rest? = some own → rd.ParamFits R r.type own.type

theorem Open.surplus {source target : Signature Ty} (ho : I.Open st) (hi : I.Inv st)
    (hs : ∀ a ∈ source.parts, I.Turns st a) (ht : ∀ a ∈ target.parts, I.Turns st a) :
    I.Judges (fun d => Rule.surplus ctx (I.ask d) source target) st
      (fun st' => RestFits rd (I.Yes st') source target)
      (¬ RestFits rd I.Spared source target) := by
  unfold Rule.surplus RestFits
  dsimp only
  cases hr : target.rest? with
  | none =>
    cases hf : (source.positional.drop target.positional.length).find? fun p => !p.optional with
    | none =>
      refine Frame.judges_yes hi ⟨fun q hq => ?_, nofun⟩
      simpa using List.find?_eq_none.mp hf q hq
    | some p =>
      refine Frame.judges_no hi fun hfit => ?_
      have hp := List.find?_some hf
      have ho := hfit.1 p (List.mem_of_find?_eq_some hf)
      simp [show p.optional = true from ho] at hp
  | some r =>
    have hra := ht _ (Signature.type_mem_parts (Signature.mem_params_of_rest hr))
    refine (ho.element hi (I.refl st) hra).bind fun e st₁ hi₁ hs₁ he => ?_
    have hq : ∀ q ∈ source.positional.drop target.positional.length, I.Turns st q.type :=
      fun q hq => hs _ (Signature.type_mem_parts
        (Signature.mem_params_of_positional (List.mem_of_mem_drop hq)))
    have hextra := Frame.judges_firstMisfit
      (f := fun d p => CheckM.within (.param p.name) (Rule.parameter ctx (I.ask d) e p.type))
      (source.positional.drop target.positional.length) (fun p => paramFits_stable e p.type) hi₁
      fun p hp st' hi' hs' => ((ho.later (I.trans hs₁ hs')).parameter hi'
        (I.turns_stable _ _ _ hs' he.1)
        (I.turns_stable _ _ _ (I.trans hs₁ hs') (hq p hp))).within (.param p.name)
    refine hextra.bind ?_ ?_
    · intro st' hi' hs' hy
      have hs'' := I.trans hs₁ hs'
      cases ho' : source.rest? with
      | none =>
        refine Frame.judges_yes hi' ⟨fun q hq => he.2.paramFits_left (hy q hq), nofun⟩
      | some own =>
        have hown := hs _ (Signature.type_mem_parts (Signature.mem_params_of_rest ho'))
        have hlast := ((ho.later hs'').parameter hi' (I.turns_stable _ _ _ hs'' hra)
          (I.turns_stable _ _ _ hs'' hown)).within (.param own.name)
        refine Frame.Gives.imp hlast fun v st₂ _ hs₂ hv => ⟨fun hve => ⟨?_, ?_⟩, fun hve hfit => ?_⟩
        · exact fun q hq => he.2.paramFits_left (paramFits_stable _ _ _ _ hs₂ (hy q hq))
        · rintro _ _ ⟨⟩ ⟨⟩
          exact hv.1 hve
        · exact hv.2 hve (hfit.2 r own rfl rfl)
    · rintro m st' hi' - ⟨q, hq, hn⟩
      exact Frame.judges_no hi' fun hfit => hn (he.2.spared_left (hfit.1 q hq))

theorem signatureFits_stable (s u : Signature Ty) :
    I.toFrame.Stable fun st' => rd.SignatureFits (I.Yes st') s u :=
  fun _ _ hs h => h.imp (fun _ => True) (fun _ => trivial)
    (fun a b _ _ => I.yes_stable a b _ _ hs) (fun _ _ => trivial) fun _ _ => trivial

theorem Open.signature {source target : Signature Ty} (ho : I.Open st) (hi : I.Inv st)
    (hs : ∀ a ∈ source.parts, I.Turns st a) (ht : ∀ a ∈ target.parts, I.Turns st a) :
    I.Judges (fun d => Rule.signature ctx (I.ask d) source target) st
      (fun st' => rd.SignatureFits (I.Yes st') source target)
      (¬ rd.SignatureFits I.Spared source target) := by
  have hprovided := ho.provided source.rest? target.positional source.positional hi
    (fun r hr => hs _ (Signature.type_mem_parts (Signature.mem_params_of_rest hr)))
    (fun p hp => ht _ (Signature.type_mem_parts (Signature.mem_params_of_positional hp)))
    (fun q hq => hs _ (Signature.type_mem_parts (Signature.mem_params_of_positional hq)))
  refine hprovided.bind ?_ ?_
  · intro st₁ hi₁ hs₁ hy₁
    have hsurplus := (ho.later hs₁).surplus hi₁
      (fun a ha => I.turns_stable _ _ _ hs₁ (hs a ha))
      fun a ha => I.turns_stable _ _ _ hs₁ (ht a ha)
    refine hsurplus.bind ?_ ?_
    · intro st₂ hi₂ hs₂ hy₂
      have hs₁₂ := I.trans hs₁ hs₂
      have hresult := ((ho.later hs₁₂).now hi₂
        (I.turns_stable _ _ _ hs₁₂ (hs _ source.result_mem_parts))
        (I.turns_stable _ _ _ hs₁₂ (ht _ target.result_mem_parts))).within .result
      refine Frame.Gives.imp hresult fun v st₃ _ hs₃ hv => ⟨fun he => ?_, fun he hf => ?_⟩
      · refine ⟨fun i p a hp ha => ?_, fun q hq => ?_, fun r own hr hown => ?_, hv.1 he⟩
        · exact paramFits_stable _ _ _ _ (I.trans hs₂ hs₃) (hy₁ i p a hp ha)
        · have hq' := hy₂.1 q hq
          revert hq'
          cases target.rest? with
          | none => exact id
          | some r => exact paramFits_stable _ _ _ _ hs₃
        · exact paramFits_stable _ _ _ _ hs₃ (hy₂.2 r own hr hown)
      · exact hf.result (hv.2 he)
    · exact fun m st₂ hi₂ _ hn => Frame.judges_no hi₂ fun hf => hn ⟨hf.surplus, hf.rest⟩
  · rintro m st₁ hi₁ - ⟨i, p, a, hp, ha, hn⟩
    exact Frame.judges_no hi₁ fun hf => hn (hf.provided i p a hp ha)

theorem Open.signatures (ho : I.Open st) (ss us : List (Signature Ty)) (hi : I.Inv st)
    (hne : ss ≠ []) (hs : ∀ s ∈ ss, ∀ a ∈ s.parts, I.Turns st a)
    (hu : ∀ u ∈ us, ∀ a ∈ u.parts, I.Turns st a) :
    I.Judges (fun d => Rule.signatures ctx (I.ask d) s t ss us) st
      (fun st' => rd.SignaturesFit (I.Yes st') ss us) (¬ rd.SignaturesFit I.Spared ss us) := by
  have hall := Frame.judges_firstMisfit (F := I.toFrame)
    (f := fun d u => CheckM.bestOf (fun s => Rule.signature ctx (I.ask d) s u) ss)
    (Y := fun u st' => ∃ s ∈ ss, rd.SignatureFits (I.Yes st') s u)
    (N := fun u => ∀ s ∈ ss, ¬ rd.SignatureFits I.Spared s u) us
    (fun u st' st'' hs' ⟨s, hm, hf⟩ => ⟨s, hm, signatureFits_stable s u _ _ hs' hf⟩) hi
    fun u hum st' hi' hs' => Frame.judges_bestOf hne hi' fun s hsm st'' hi'' hs'' => by
      have hlater := I.trans hs' hs''
      exact (ho.later hlater).signature hi''
        (fun a ha => I.turns_stable _ _ _ hlater (hs s hsm a ha))
        fun a ha => I.turns_stable _ _ _ hlater (hu u hum a ha)
  refine hall.bind (fun st' hi' _ hy => Frame.judges_yes hi' hy) ?_
  rintro m st' hi' - ⟨u, hum, hn⟩
  have hno : ¬ rd.SignaturesFit I.Spared ss us := by
    intro hf
    obtain ⟨s, hsm, hsu⟩ := hf u hum
    exact hn s hsm hsu
  by_cases hp : m.path.isEmpty
  · simp only [hp]
    exact Frame.judges_no hi' hno
  · simp only [hp]
    exact Frame.judges_no hi' hno

theorem Open.toFunc {us : List (Signature Ty)} {wanted : Option Ty} (ho : I.Open st)
    (hi : I.Inv st) (hs : I.Taken st s) (ht : I.Taken st (.func us wanted))
    (h : Undecided s (.func us wanted)) (hu : ∀ ms, s ≠ .union ms) :
    I.Judges (fun d => Rule.toFunc ctx (I.ask d) s t us wanted) st
      (fun st' => rd.FitsBy (I.Yes st') s (.func us wanted))
      (¬ rd.FitsBy I.Spared s (.func us wanted)) := by
  cases s with
  | func ss own =>
    have hreceivers : I.Judges (fun d => Rule.receivers (I.ask d) own wanted) st
        (fun st' => ∀ o w, own = some o → wanted = some w → I.Yes st' w o)
        (∃ o w, own = some o ∧ wanted = some w ∧ I.No w o) := by
      cases own with
      | none => exact Frame.judges_yes hi nofun
      | some o =>
        cases wanted with
        | none => exact Frame.judges_yes hi nofun
        | some w =>
          refine ((ho.now hi (ht.child _ (Ty.receiver_mem_children rfl))
            (hs.child _ (Ty.receiver_mem_children rfl))).within .receiver).imp ?_ ?_
          · rintro st' hy _ _ ⟨⟩ ⟨⟩
            exact hy
          · exact fun hn => ⟨o, w, rfl, rfl, hn⟩
    refine hreceivers.bind ?_ ?_
    · intro st' hi' hs' hy
      have hsigs := (ho.later hs').signatures (s := .func ss own) (t := t) ss us hi'
        (hs.callable (.inl rfl))
        (fun s hm a ha => I.turns_stable _ _ _ hs'
          (hs.child _ (Ty.part_mem_children_func hm ha)))
        fun u hm a ha => I.turns_stable _ _ _ hs'
          (ht.child _ (Ty.part_mem_children_func hm ha))
      refine Frame.Gives.imp hsigs fun v st'' _ hs'' hv => ⟨fun he => ?_, fun he hf => ?_⟩
      · exact .functions (fun o w hown hw => I.yes_stable _ _ _ _ hs'' (hy o w hown hw)) (hv.1 he)
      · cases hf with
        | equal he => exact h.differ he
        | functions _ hfit => exact hv.2 he hfit
    · rintro m st' hi' - ⟨o, w, hown, hw, hn⟩
      refine Frame.judges_no hi' fun hf => ?_
      cases hf with
      | equal he => exact h.differ he
      | functions hfit _ => exact hfit o w hown hw hn
  | _ => exact Frame.judges_no hi (h.not_fits hu (by simp) id)

theorem Open.toCtor {us : List (Signature Ty)} (ho : I.Open st) (hi : I.Inv st)
    (hs : I.Taken st s) (ht : I.Taken st (.ctor us)) (h : Undecided s (.ctor us))
    (hu : ∀ ms, s ≠ .union ms) :
    I.Judges (fun d => Rule.toCtor ctx (I.ask d) s t us) st
      (fun st' => rd.FitsBy (I.Yes st') s (.ctor us)) (¬ rd.FitsBy I.Spared s (.ctor us)) := by
  cases s with
  | ctor ss =>
    have hsigs := ho.signatures (s := .ctor ss) (t := t) ss us hi
      (hs.callable (r := none) (.inr rfl))
      (fun s hm a ha => hs.child _ (Ty.part_mem_children_ctor hm ha))
      fun u hm a ha => ht.child _ (Ty.part_mem_children_ctor hm ha)
    refine hsigs.imp (fun _ => .constructors) fun hn hf => ?_
    cases hf with
    | equal he => exact h.differ he
    | constructors hfit => exact hn hfit
  | _ => exact Frame.judges_no hi (h.not_fits hu (by simp) id)

theorem plain_of_not_inter {ask : Ask σ} {depth : Nat} (hs : ∀ ms, s ≠ .inter ms) :
    Rule.plain ctx ask depth s t =
      match t with
      | .array e => Rule.toArray ask s t e
      | .tuple es => Rule.toTuple ask s t es
      | .object fs index _ => Rule.toObject ask s t fs index
      | .func ss receiver => Rule.toFunc ctx ask s t ss receiver
      | .ctor ss => Rule.toCtor ctx ask s t ss
      | _ => pure (Rule.misfit s t) := by
  unfold Rule.plain
  split
  · exact (hs _ rfl).elim
  · rfl

/-- Neither type is a union and the source is no intersection. -/
theorem Open.plain (ho : I.Open st) (hi : I.Inv st) (hs : I.Taken st s) (ht : I.Taken st t)
    (h : Undecided s t) (hsu : ∀ ms, s ≠ .union ms) (hsi : ∀ ms, s ≠ .inter ms)
    (htu : ∀ ms, t ≠ .union ms) (depth : Nat → Nat) :
    I.Judges (fun d => Rule.plain ctx (I.ask d) (depth d) s t) st
      (fun st' => rd.FitsBy (I.Yes st') s t) (¬ rd.FitsBy I.Spared s t) := by
  simp only [plain_of_not_inter hsi]
  cases t with
  | array e => exact ho.toArray hi hs ht h hsu
  | tuple es => exact ho.toTuple hi hs ht h hsu
  | object gs wanted n => exact ho.toObject hi hs ht h hsu
  | func us wanted => exact ho.toFunc hi hs ht h hsu
  | ctor us => exact ho.toCtor hi hs ht h hsu
  | union ms => exact (htu ms rfl).elim
  | _ => exact Frame.judges_no hi (h.not_fits hsu (by simp) (by cases s <;> exact id))

section
variable {ask : Ask σ} {depth : Nat} {ms : List Ty}

theorem structural_toInter (hs : ∀ us, s ≠ .union us) :
    Rule.structural ctx ask depth s (.inter ms) = CheckM.firstMisfit (fun m => ask s m) ms := by
  unfold Rule.structural
  split
  · exact (hs _ rfl).elim
  · rfl

theorem structural_toUnion (hs : ∀ us, s ≠ .union us) :
    Rule.structural ctx ask depth s (.union ms) = Rule.toSome ask s (.union ms) ms := by
  unfold Rule.structural
  split
  · exact (hs _ rfl).elim
  · rfl

theorem structural_plain (hs : ∀ us, s ≠ .union us) (hti : ∀ us, t ≠ .inter us)
    (htu : ∀ us, t ≠ .union us) :
    Rule.structural ctx ask depth s t = Rule.plain ctx ask depth s t := by
  unfold Rule.structural
  split
  · exact (hs _ rfl).elim
  · split
    · exact (hti _ rfl).elim
    · exact (htu _ rfl).elim
    · rfl

end

/-- The rules without those for intersections decide whether the types fit. -/
theorem Open.structural (ho : I.Open st) (hi : I.Inv st) (hs : I.Turns st s) (ht : I.Turns st t)
    (h : Undecided s t) (hsi : ∀ ms, s ≠ .inter ms) (hti : ∀ ms, t ≠ .inter ms)
    (depth : Nat → Nat) :
    I.Judges (fun d => Rule.structural ctx (I.ask d) (depth d) s t) st
      (fun st' => rd.FitsBy (I.Yes st') s t) (¬ rd.FitsBy I.Spared s t) := by
  by_cases hsu : ∃ ms, s = .union ms
  · obtain ⟨ms, rfl⟩ := hsu
    refine (ho.fromUnion hi hs ht).imp (fun st' => .fromUnion h.toNever) ?_
    rintro ⟨m, hm, hn⟩ hf
    cases hf with
    | equal he => exact h.differ he
    | toAny => exact h.toAny rfl
    | fromUnion _ hall => exact hall m hm hn
    | toUnion hns => exact hns _ rfl
  have hsu' : ∀ ms, s ≠ .union ms := fun ms he => hsu ⟨ms, he⟩
  by_cases htu : ∃ ms, t = .union ms
  · obtain ⟨ms, rfl⟩ := htu
    simp only [structural_toUnion hsu']
    refine (ho.toSome hi hs ht).imp ?_ fun hn hf => ?_
    · rintro st' ⟨m, hm, hy⟩
      exact .toUnion hsu' hm hy
    · cases hf with
      | equal he => exact h.differ he
      | fromNever => exact h.fromNever rfl
      | fromAny => exact h.fromAny rfl
      | fromUnion => exact hsu' _ rfl
      | toUnion _ hm hy => exact hy (hn _ hm)
  have htu' : ∀ ms, t ≠ .union ms := fun ms he => htu ⟨ms, he⟩
  simp only [structural_plain hsu' hti htu']
  exact ho.plain hi (taken hs) (taken ht) h hsu' hsi htu' depth

end Inquiry
end ShapeCheck
