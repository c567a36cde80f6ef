import ShapeCheck.Proofs.Fit.Greatest
import ShapeCheck.Proofs.Fit.History

/-! What a mismatch blames: two types the first of which does not fit the second, although the
mismatch was passed on from rule to rule and may have been on record. -/

namespace ShapeCheck

namespace Mismatch
variable {m : Mismatch} {a e : Ty}

/-- The mismatch says that `a` does not fit `e`, and names a place inside them if it is about a
property. -/
structure Points (m : Mismatch) (a e : Ty) : Prop where
  actual : m.actual = some a
  expected : m.expected = some e
  place : m.flaw ≠ .unfit → m.path ≠ []

theorem points_unfit (detail : Option Detail) : (unfit e a detail).Points a e :=
  ⟨rfl, rfl, fun h => (h rfl).elim⟩

theorem Points.within (h : m.Points a e) (segment : Segment) : (m.within segment).Points a e :=
  ⟨h.actual, h.expected, fun _ => by simp [Mismatch.within]⟩

/-- The mismatch blames two types that do not fit indeed. -/
def Blames (rd : Reading) (Adm : Ty → Prop) (m : Mismatch) : Prop :=
  ∃ a e, m.Points a e ∧ Adm a ∧ Adm e ∧ ¬ rd.Assignable a e

theorem Blames.within {rd : Reading} {Adm : Ty → Prop} (h : m.Blames rd Adm) (segment : Segment) :
    (m.within segment).Blames rd Adm := by
  obtain ⟨a, e, hp, hn⟩ := h
  exact ⟨a, e, hp.within segment, hn⟩

/-- The mismatch blames two given types, or two that do not fit indeed. -/
def Explains (rd : Reading) (Adm : Ty → Prop) (s t : Ty) (m : Mismatch) : Prop :=
  m.Points s t ∨ m.Blames rd Adm

end Mismatch

namespace Frame
variable {σ α : Type}

/-- Whatever mismatch a computation ends with is as required. -/
def Charges (F : Frame (CheckState σ)) (act : CheckM σ Verdict) (st : CheckState σ)
    (P : Mismatch → Prop) : Prop :=
  F.Gives (fun _ => act) st fun v _ => ∀ m, v = some m → P m

variable {F : Frame (CheckState σ)} {st : CheckState σ} {act : CheckM σ Verdict}
  {P Q : Mismatch → Prop}

theorem charges_yes (hi : F.Inv st) : F.Charges (pure none) st P := gives_pure hi nofun

theorem charges_no {m : Mismatch} (hi : F.Inv st) (h : P m) : F.Charges (pure (some m)) st P := by
  apply gives_pure hi
  rintro _ ⟨⟩
  exact h

theorem Charges.imp (h : F.Charges act st P) (hp : ∀ m, P m → Q m) : F.Charges act st Q :=
  Gives.imp h fun _ _ _ _ hv m hm => hp m (hv m hm)

theorem Charges.judges (h : F.Charges act st P) :
    F.Judges (fun _ => act) st (fun _ => True) True :=
  Gives.imp h fun _ _ _ _ _ => ⟨fun _ => trivial, fun _ => trivial⟩

theorem Charges.bind {β : Type} {k : Verdict → CheckM σ β} {Post : β → CheckState σ → Prop}
    (h : F.Charges act st P)
    (hyes : ∀ st', F.Inv st' → F.Gives (fun _ => k none) st' Post)
    (hno : ∀ m st', F.Inv st' → P m → F.Gives (fun _ => k (some m)) st' Post) :
    F.Gives (fun _ => act >>= k) st Post := by
  refine Gives.bind h fun v st' hi _ hv => ?_
  cases v with
  | none => exact hyes st' hi
  | some m => exact hno m st' hi (hv m rfl)

theorem Charges.within {segment : Segment} (h : F.Charges act st P)
    (hp : ∀ m, P m → Q (m.within segment)) : F.Charges (CheckM.within segment act) st Q := by
  refine Gives.map (Gives.imp h fun v _ _ _ hv m hm => ?_)
  obtain ⟨m', rfl, rfl⟩ := Option.map_eq_some_iff.mp hm
  exact hp m' (hv m' rfl)

variable {f : α → CheckM σ Verdict} {xs : List α}

theorem charges_firstMisfit (hi : F.Inv st)
    (h : ∀ x ∈ xs, ∀ st', F.Inv st' → F.Charges (f x) st' P) :
    F.Charges (CheckM.firstMisfit f xs) st P := by
  induction xs generalizing st with
  | nil => exact charges_yes hi
  | cons x xs ih =>
    refine (h x List.mem_cons_self st hi).bind (fun st' hi' => ?_) fun m st' hi' => charges_no hi'
    exact ih hi' fun y hy => h y (List.mem_cons_of_mem x hy)

theorem charges_bestOf (hi : F.Inv st)
    (h : ∀ x ∈ xs, ∀ st', F.Inv st' → F.Charges (f x) st' P) :
    F.Charges (CheckM.bestOf f xs) st P := by
  cases xs with
  | nil => exact charges_yes hi
  | cons x xs =>
    refine (h x List.mem_cons_self st hi).bind (fun st' => charges_yes) fun m st' hi' hm => ?_
    have hrest := gives_someFits hi' fun y hy st'' hi'' _ =>
      (h y (List.mem_cons_of_mem x hy) st'' hi'').judges
    refine hrest.bind fun b st'' hi'' _ _ => ?_
    cases b with
    | true => exact charges_yes hi''
    | false => exact charges_no hi'' hm

end Frame

section
open Mismatch
variable {σ : Type} {rd : Reading} {ctx : Surroundings σ} {World : σ → Prop} {Adm : Ty → Prop}
  {st : CheckState σ} {s t : Ty} {ask : Ask σ}

theorem points_of_immediate {m : Mismatch} (h : Rule.immediate s t = some (some m)) :
    m.Points s t := by
  unfold Rule.immediate at h
  split at h
  · cases h
  split at h
  · cases h
    exact points_unfit _
  split at h
  · cases h
  split at h
  · cases h
  split at h
  · split at h
    · cases h
    · cases h
      exact points_unfit _
  · cases h

/-- Besides being right, every mismatch on record explains itself. -/
def blameFrame (rd : Reading) (World : σ → Prop) (Adm : Ty → Prop) : Frame (CheckState σ) where
  Err _ := True
  Inv st := (soundFrame rd World Adm).Inv st ∧ ∀ e ∈ st.memo.verdicts, ∀ m, e.2 = some m →
    m.Explains rd Adm e.1.source e.1.target
  Step _ _ := True
  refl _ := trivial
  trans _ _ := trivial

/-- Questions about admissible types are answered, and a mismatch they are answered by blames types
that do not fit. -/
def Blaming (rd : Reading) (World : σ → Prop) (Adm : Ty → Prop) (ask : Ask σ) : Prop :=
  ∀ {st : CheckState σ} {a b : Ty}, (blameFrame rd World Adm).Inv st → Adm a → Adm b →
    (blameFrame rd World Adm).Charges (ask a b) st fun m =>
      m.Blames rd Adm ∧ ¬ rd.Assignable a b

namespace Blaming
variable (hask : Blaming rd World Adm ask) (hi : (blameFrame rd World Adm).Inv st)
include hask hi

theorem within (segment : Segment) (hs : Adm s) (ht : Adm t) :
    (blameFrame rd World Adm).Charges (CheckM.within segment (ask s t)) st
      (Blames rd Adm) :=
  (hask hi hs ht).within fun _ h => h.1.within segment

theorem fromUnion {ms : List Ty} (hs : ∀ m ∈ ms, Adm m) (ht : Adm t) :
    (blameFrame rd World Adm).Charges (Rule.fromUnion ask s ms t) st (Explains rd Adm s t) := by
  apply Frame.charges_firstMisfit hi
  intro m hm st' hi'
  refine (hask hi' (hs m hm) ht).bind (fun st'' => Frame.charges_yes) fun found st'' hi'' hf => ?_
  by_cases hp : found.path.isEmpty
  · simp only [hp]
    exact Frame.charges_no hi'' (.inl (points_unfit _))
  · simp only [hp]
    exact Frame.charges_no hi'' (.inr hf.1)

theorem toSome {ms : List Ty} (hs : Adm s) (ht : ∀ m ∈ ms, Adm m) :
    (blameFrame rd World Adm).Charges (Rule.toSome ask s t ms) st (Explains rd Adm s t) := by
  have hsome := Frame.gives_someFits hi fun m hm st' hi' _ => (hask hi' hs (ht m hm)).judges
  refine hsome.bind fun b st' hi' _ _ => ?_
  cases b with
  | true => exact Frame.charges_yes hi'
  | false => exact Frame.charges_no hi' (.inl (points_unfit _))

theorem pointwise {pairs : List (Ty × Ty)} (hp : ∀ p ∈ pairs, Adm p.1 ∧ Adm p.2) :
    (blameFrame rd World Adm).Charges (Rule.pointwise ask pairs) st (Blames rd Adm) := by
  apply Frame.charges_firstMisfit hi
  intro x hx st' hi'
  have hx' := hp x.1 (List.fst_mem_of_mem_zipIdx hx)
  exact hask.within hi' _ hx'.1 hx'.2

omit hask in
theorem misfit : (blameFrame rd World Adm).Charges (pure (Rule.misfit s t)) st
    (Explains rd Adm s t) := Frame.charges_no hi (.inl (points_unfit _))

theorem toArray {e : Ty} (hs : ∀ a ∈ s.children, Adm a) (he : Adm e) :
    (blameFrame rd World Adm).Charges (Rule.toArray ask s t e) st (Explains rd Adm s t) := by
  cases s with
  | array a => exact (hask.within hi _ (hs a (Ty.element_mem_children _)) he).imp fun _ => .inr
  | tuple as =>
    refine (hask.pointwise hi fun p hp => ?_).imp fun _ => .inr
    obtain ⟨a, ha, rfl⟩ := List.mem_map.mp hp
    exact ⟨hs a ha, he⟩
  | _ => exact misfit hi

theorem toTuple {es : List Ty} (hs : ∀ a ∈ s.children, Adm a) (ht : ∀ e ∈ es, Adm e) :
    (blameFrame rd World Adm).Charges (Rule.toTuple ask s t es) st (Explains rd Adm s t) := by
  cases s with
  | tuple as =>
    by_cases hl : as.length = es.length
    · simp only [Rule.toTuple, hl, if_true]
      refine (hask.pointwise hi fun p hp => ?_).imp fun _ => .inr
      exact ⟨hs _ (List.of_mem_zip hp).1, ht _ (List.of_mem_zip hp).2⟩
    · simp only [Rule.toTuple, hl, if_false]
      exact Frame.charges_no hi (.inl (points_unfit _))
  | _ => exact misfit hi

theorem wantedField {fs : List (Field Ty)} {g : Field Ty} (hf : ∀ f ∈ fs, Adm f.type)
    (hg : Adm g.type) :
    (blameFrame rd World Adm).Charges (Rule.wantedField ask s t fs g) st
      (Explains rd Adm s t) := by
  unfold Rule.wantedField
  split
  · split
    · exact Frame.charges_yes hi
    · exact Frame.charges_no hi (.inl ⟨rfl, rfl, fun _ => by simp⟩)
  · rename_i f hfind
    split
    · exact Frame.charges_no hi (.inl ⟨rfl, rfl, fun _ => by simp⟩)
    · exact (hask.within hi _ (hf f (Field.mem_of_find? hfind)) hg).imp fun _ => .inr

/-- The blame is put on the two types that were compared. -/
theorem underIndex {a v : Ty} (segment : Segment) (ha : Adm a) (hv : Adm v) :
    (blameFrame rd World Adm).Charges (Rule.underIndex ask v a segment) st (Blames rd Adm) := by
  refine (hask hi ha hv).bind (fun st' => Frame.charges_yes) fun m st' hi' hm => ?_
  exact Frame.charges_no hi' ⟨a, v, ⟨rfl, rfl, fun _ => by simp⟩, ha, hv, hm.2⟩

theorem indexed {fs : List (Field Ty)} {own wanted : Option (Index Ty)}
    (hf : ∀ f ∈ fs, Adm f.type) (hown : ∀ i, own = some i → Adm i.value)
    (hw : ∀ i, wanted = some i → Adm i.value) :
    (blameFrame rd World Adm).Charges (Rule.indexed ask fs own wanted) st (Blames rd Adm) := by
  cases wanted with
  | none => exact Frame.charges_yes hi
  | some index =>
    have hfields : (blameFrame rd World Adm).Charges (CheckM.firstMisfit
        (fun f => Rule.underIndex ask index.value f.type (.field f.name)) fs) st
        (Blames rd Adm) :=
      Frame.charges_firstMisfit hi fun f hm st' hi' =>
        hask.underIndex hi' _ (hf f hm) (hw index rfl)
    refine hfields.bind (fun st' hi' => ?_) fun m st' hi' => Frame.charges_no hi'
    cases own with
    | none => exact Frame.charges_yes hi'
    | some o => exact hask.underIndex hi' _ (hown o rfl) (hw index rfl)

theorem toObject {gs : List (Field Ty)} {wanted : Option (Index Ty)}
    (hs : ∀ a ∈ s.children, Adm a) (hg : ∀ g ∈ gs, Adm g.type)
    (hw : ∀ i, wanted = some i → Adm i.value) :
    (blameFrame rd World Adm).Charges (Rule.toObject ask s t gs wanted) st
      (Explains rd Adm s t) := by
  cases s with
  | object fs own n =>
    have hf : ∀ f ∈ fs, Adm f.type := fun f hf =>
      hs _ (Ty.field_mem_children hf)
    have hfields : (blameFrame rd World Adm).Charges
        (CheckM.firstMisfit (Rule.wantedField ask (.object fs own n) t fs) gs) st
        (Explains rd Adm (.object fs own n) t) :=
      Frame.charges_firstMisfit hi fun g hm st' hi' => hask.wantedField hi' hf (hg g hm)
    refine hfields.bind (fun st' hi' => ?_) fun m st' hi' => Frame.charges_no hi'
    refine (hask.indexed hi' hf (fun i hi => ?_) hw).imp fun _ => .inr
    exact hs _ (Ty.value_mem_children hi)
  | _ => exact misfit hi

/-- Under bivariance it is the first of two mismatches that is passed on. -/
theorem parameter {p q : Ty} (hp : Adm p) (hq : Adm q) :
    (blameFrame rd World Adm).Charges (Rule.parameter ctx ask p q) st (Blames rd Adm) := by
  refine (hask hi hp hq).bind (fun st' => Frame.charges_yes) fun m st' hi' hm => ?_
  cases ctx.variance with
  | contravariant => exact Frame.charges_no hi' hm.1
  | bivariant =>
    exact (hask hi' hq hp).bind (fun st'' => Frame.charges_yes)
      fun _ st'' hi'' _ => Frame.charges_no hi'' hm.1

theorem parameterAt (segment : Segment) {p q : Ty} (hp : Adm p) (hq : Adm q) :
    (blameFrame rd World Adm).Charges (CheckM.within segment (Rule.parameter ctx ask p q)) st
      (Blames rd Adm) :=
  (hask.parameter hi hp hq).within fun _ h => h.within segment

omit hask in
theorem resolve (hg : rd.Governs ctx World Adm) (ht : Adm t) :
    (blameFrame rd World Adm).Gives (fun _ => ctx.resolve t) st fun t' _ => t' = rd.look t := by
  obtain ⟨w', hw, hrun⟩ := hg.unwrap hi.1.1 ht
  refine Frame.gives_inWorld (fun a w h => ?_) fun e w h => ?_
  · cases hrun.symm.trans h
    exact ⟨⟨⟨hw, hi.1.2⟩, hi.2⟩, trivial, rfl⟩
  · cases hrun.symm.trans h

omit hask in
theorem elementOf (hg : rd.Governs ctx World Adm) (hf : rd.Faithful Adm) (ht : Adm t) :
    (blameFrame rd World Adm).Gives (fun _ => Rule.elementOf ctx t) st fun e _ => Adm e := by
  refine (resolve hi hg ht).bind ?_
  rintro _ st' hi' - rfl
  have hl := hf.look ht
  revert hl
  cases rd.look t with
  | array e => exact fun hl => Frame.gives_pure hi' (hf.child hl (Ty.element_mem_children _))
  | _ => exact fun _ => Frame.gives_pure hi' hf.any

section
variable (hg : rd.Governs ctx World Adm) (hf : rd.Faithful Adm)
include hg hf

theorem provided (rest : Option (Param Ty)) (ps qs : List (Param Ty))
    (hr : ∀ r, rest = some r → Adm r.type) (hp : ∀ p ∈ ps, Adm p.type)
    (hq : ∀ q ∈ qs, Adm q.type) :
    (blameFrame rd World Adm).Charges (Rule.provided ctx ask rest ps qs) st (Blames rd Adm) := by
  induction ps generalizing qs st with
  | nil => exact Frame.charges_yes hi
  | cons p ps ih =>
    obtain ⟨hpp, hps⟩ := List.forall_mem_cons.mp hp
    cases qs with
    | cons q qs =>
      obtain ⟨hqq, hqs⟩ := List.forall_mem_cons.mp hq
      refine (hask.parameterAt hi (.param p.name) hpp hqq).bind (fun st' hi' => ?_)
        fun m st' hi' => Frame.charges_no hi'
      exact ih hi' qs hps hqs
    | nil =>
      cases rest with
      | none => exact ih hi [] hps hq
      | some r =>
        refine (elementOf hi hg hf (hr r rfl)).bind fun e st₁ hi₁ _ he => ?_
        refine (hask.parameterAt hi₁ (.param p.name) hpp he).bind (fun st' hi' => ?_)
          fun m st' hi' => Frame.charges_no hi'
        exact ih hi' [] hps hq

/-- A mismatch that names a place blames types that do not fit. One without a place says that an
argument is missing and blames no types. -/
theorem surplus {source target : Signature Ty} (hs : ∀ a ∈ source.parts, Adm a)
    (ht : ∀ a ∈ target.parts, Adm a) :
    (blameFrame rd World Adm).Charges (Rule.surplus ctx ask source target) st fun m =>
      m.path ≠ [] → m.Blames rd Adm := by
  unfold Rule.surplus
  dsimp only
  split
  · rename_i r hr
    have hra := ht _ (Signature.type_mem_parts (Signature.mem_params_of_rest hr))
    refine (elementOf hi hg hf hra).bind fun e st₁ hi₁ _ he => ?_
    have hextra : (blameFrame rd World Adm).Charges (CheckM.firstMisfit
        (fun p => CheckM.within (.param p.name) (Rule.parameter ctx ask e p.type))
        (source.positional.drop target.positional.length)) st₁ (Blames rd Adm) := by
      apply Frame.charges_firstMisfit hi₁
      intro p hp st' hi'
      apply hask.parameterAt hi' _ he
      exact hs _ (Signature.type_mem_parts
        (Signature.mem_params_of_positional (List.mem_of_mem_drop hp)))
    refine hextra.bind (fun st' hi' => ?_) fun m st' hi' hm => Frame.charges_no hi' fun _ => hm
    cases hown : source.rest? with
    | none => exact Frame.charges_yes hi'
    | some own =>
      have howna := hs _ (Signature.type_mem_parts (Signature.mem_params_of_rest hown))
      exact (hask.parameterAt hi' _ hra howna).imp fun _ hm _ => hm
  · split
    · exact Frame.charges_yes hi
    · exact Frame.charges_no hi fun h => (h rfl).elim

theorem signature {source target : Signature Ty} (hs : ∀ a ∈ source.parts, Adm a)
    (ht : ∀ a ∈ target.parts, Adm a) :
    (blameFrame rd World Adm).Charges (Rule.signature ctx ask source target) st fun m =>
      m.path ≠ [] → m.Blames rd Adm := by
  have hprovided := hask.provided hi hg hf source.rest? target.positional source.positional
    (fun r hr => hs _ (Signature.type_mem_parts (Signature.mem_params_of_rest hr)))
    (fun p hp => ht _ (Signature.type_mem_parts (Signature.mem_params_of_positional hp)))
    (fun q hq => hs _ (Signature.type_mem_parts (Signature.mem_params_of_positional hq)))
  refine hprovided.bind (fun st₁ hi₁ => ?_) fun m st' hi' hm => Frame.charges_no hi' fun _ => hm
  refine (hask.surplus hi₁ hg hf hs ht).bind (fun st₂ hi₂ => ?_)
    fun m st' hi' hm => Frame.charges_no hi' hm
  have hresult := hask.within hi₂ .result (hs _ source.result_mem_parts)
    (ht _ target.result_mem_parts)
  exact hresult.imp fun _ hm _ => hm

/-- What blames no types is replaced by a mismatch of the whole types. -/
theorem signatures {ss us : List (Signature Ty)} (hs : ∀ s ∈ ss, ∀ a ∈ s.parts, Adm a)
    (hu : ∀ u ∈ us, ∀ a ∈ u.parts, Adm a) :
    (blameFrame rd World Adm).Charges (Rule.signatures ctx ask s t ss us) st
      (Explains rd Adm s t) := by
  have hall : (blameFrame rd World Adm).Charges (CheckM.firstMisfit
      (fun u => CheckM.bestOf (fun s => Rule.signature ctx ask s u) ss) us) st fun m =>
      m.path ≠ [] → m.Blames rd Adm :=
    Frame.charges_firstMisfit hi fun u hum st' hi' =>
      Frame.charges_bestOf hi' fun s hsm st'' hi'' =>
        hask.signature hi'' hg hf (hs s hsm) (hu u hum)
  refine hall.bind (fun st' => Frame.charges_yes) fun m st' hi' hm => ?_
  by_cases hp : m.path = []
  · simp only [hp, List.isEmpty_nil, if_true]
    exact Frame.charges_no hi' (.inl (points_unfit _))
  · simp only [List.isEmpty_iff, hp, if_false]
    exact Frame.charges_no hi' (.inr (hm hp))

theorem toFunc {us : List (Signature Ty)} {wanted : Option Ty} (hs : ∀ a ∈ s.children, Adm a)
    (ht : ∀ a ∈ (Ty.func us wanted).children, Adm a) :
    (blameFrame rd World Adm).Charges (Rule.toFunc ctx ask s t us wanted) st
      (Explains rd Adm s t) := by
  cases s with
  | func ss own =>
    have hreceivers : (blameFrame rd World Adm).Charges (Rule.receivers ask own wanted) st
        (Blames rd Adm) := by
      cases own with
      | none => exact Frame.charges_yes hi
      | some o =>
        cases wanted with
        | none => exact Frame.charges_yes hi
        | some w =>
          exact hask.within hi _ (ht w (Ty.receiver_mem_children rfl))
            (hs o (Ty.receiver_mem_children rfl))
    refine hreceivers.bind (fun st' hi' => ?_) fun m st' hi' hm => Frame.charges_no hi' (.inr hm)
    exact hask.signatures hi' hg hf
      (fun s hm a ha => hs a (Ty.part_mem_children_func hm ha))
      fun u hm a ha => ht a (Ty.part_mem_children_func hm ha)
  | _ => exact misfit hi

theorem toCtor {us : List (Signature Ty)} (hs : ∀ a ∈ s.children, Adm a)
    (ht : ∀ a ∈ (Ty.ctor us).children, Adm a) :
    (blameFrame rd World Adm).Charges (Rule.toCtor ctx ask s t us) st (Explains rd Adm s t) := by
  cases s with
  | ctor ss =>
    exact hask.signatures hi hg hf
      (fun s hm a ha => hs a (Ty.part_mem_children_ctor hm ha))
      fun u hm a ha => ht a (Ty.part_mem_children_ctor hm ha)
  | _ => exact misfit hi

theorem plain (hsi : ∀ ms, s ≠ .inter ms) (hs : Adm s) (ht : Adm t) (depth : Nat) :
    (blameFrame rd World Adm).Charges (Rule.plain ctx ask depth s t) st
      (Explains rd Adm s t) := by
  have hsc : ∀ a ∈ s.children, Adm a := fun _ => hf.child hs
  have htc : ∀ a ∈ t.children, Adm a := fun _ => hf.child ht
  rw [Inquiry.plain_of_not_inter hsi]
  cases t with
  | array e => exact hask.toArray hi hsc (htc e (Ty.element_mem_children _))
  | tuple es => exact hask.toTuple hi hsc htc
  | object gs wanted n =>
    exact hask.toObject hi hsc (fun g hg => htc _ (Ty.field_mem_children hg))
      fun i hi => htc _ (Ty.value_mem_children hi)
  | func us wanted => exact hask.toFunc hi hg hf hsc htc
  | ctor us => exact hask.toCtor hi hg hf hsc htc
  | _ => exact misfit hi

/-- The rules without those for intersections explain every mismatch. -/
theorem structural (hni : ∀ {t : Ty}, Adm t → ∀ ms, t ≠ .inter ms) (hs : Adm s) (ht : Adm t)
    (depth : Nat) :
    (blameFrame rd World Adm).Charges (Rule.structural ctx ask depth s t) st
      (Explains rd Adm s t) := by
  by_cases hsu : ∃ ms, s = .union ms
  · obtain ⟨ms, rfl⟩ := hsu
    exact hask.fromUnion hi (fun _ => hf.child hs) ht
  have hsu' : ∀ ms, s ≠ .union ms := fun ms he => hsu ⟨ms, he⟩
  by_cases htu : ∃ ms, t = .union ms
  · obtain ⟨ms, rfl⟩ := htu
    rw [Inquiry.structural_toUnion hsu']
    exact hask.toSome hi hs fun _ => hf.child ht
  rw [Inquiry.structural_plain hsu' (hni ht) fun ms he => htu ⟨ms, he⟩]
  exact hask.plain hi hg hf (hni hs) hs ht depth

end
end Blaming

/-- A mismatch on record was right when it was kept, so what it blames does not fit. -/
theorem Mismatch.Explains.blames {m : Mismatch} (h : m.Explains rd Adm s t) (hs : Adm s)
    (ht : Adm t) (hn : ¬ rd.Assignable s t) : m.Blames rd Adm := by
  rcases h with hp | hb
  · exact ⟨s, t, hp, hs, ht, hn⟩
  · exact hb

/-- A mismatch is explained by the record or by the rules, and goes on record as it is. -/
theorem explained_remember {keep : Bool} {q : Question} {work : CheckM σ Verdict}
    (hi : (blameFrame rd World Adm).Inv st)
    (hwork : ∀ st', (blameFrame rd World Adm).Inv st' →
      (blameFrame rd World Adm).Charges work st' (Explains rd Adm q.source q.target)) :
    Settles (fun _ => True) (fun _ => remember keep q work) st fun v st' =>
      (∀ e ∈ st'.memo.verdicts, ∀ m, e.2 = some m → m.Explains rd Adm e.1.source e.1.target) ∧
      ∀ m, v = some m → m.Explains rd Adm q.source q.target := by
  refine settles_remember (fun v hv => ?_) (fun d hd => ?_) fun _ => ?_
  · refine ⟨hi.2, fun m hm => .inr ?_⟩
    obtain ⟨e, he, rfl, -⟩ := Memo.exists_of_verdict? hv
    obtain ⟨hs, ht, hright⟩ := hi.1.2 e he
    apply (hi.2 e he m hm).blames hs ht
    intro ha
    rw [hright.mpr ha] at hm
    cases hm
  · exact ⟨hi.2, nofun⟩
  · refine Settles.imp (hwork { st with memo := st.memo.start q } hi) ?_
    rintro v st' ⟨hi', -, hv⟩
    refine ⟨fun e he => ?_, hv⟩
    simp only [Memo.settle] at he
    split at he
    · rcases List.mem_cons.mp he with rfl | he
      · exact hv
      · exact hi'.2 e he
    · exact hi'.2 e he

/-- Every mismatch that a check ends with blames types that do not fit. -/
theorem blaming_check (hg : rd.Governs ctx World Adm) (hf : rd.Faithful Adm)
    (hni : ∀ {t : Ty}, Adm t → ∀ ms, t ≠ .inter ms) (depth : Nat) :
    Blaming rd World Adm (check ctx depth) := by
  induction depth with
  | zero => exact fun _ _ _ => Frame.gives_throw trivial
  | succ depth ih =>
    intro st s t hi hs ht
    have hls := hf.look hs
    have hlt := hf.look ht
    -- the record stays right, so it is enough that a mismatch is explained
    have hexplained : Settles (fun _ => True) (fun _ => check ctx (depth + 1) s t) st fun v st' =>
        (∀ e ∈ st'.memo.verdicts, ∀ m, e.2 = some m → m.Explains rd Adm e.1.source e.1.target) ∧
        ∀ m, v = some m → m.Explains rd Adm (rd.look s) (rd.look t) := by
      refine Settles.bind (Blaming.resolve hi hg hs) ?_
      rintro _ st₁ ⟨hi₁, -, rfl⟩
      refine Settles.bind (Blaming.resolve hi₁ hg ht) ?_
      rintro _ st₂ ⟨hi₂, -, rfl⟩
      cases himm : Rule.immediate (rd.look s) (rd.look t) with
      | some v =>
        refine settles_pure ⟨hi₂.2, fun m hm => .inl ?_⟩
        subst hm
        exact points_of_immediate himm
      | none =>
        exact explained_remember hi₂ fun st' hi' =>
          ih.structural hi' hg hf hni hls hlt depth
    have hright := check_judges hg hf hni (depth + 1) hi.1 hs ht
    refine Settles.imp (Settles.and hright hexplained) ?_
    rintro v st' ⟨⟨hi', -, hyes, hno⟩, hrecord, hv⟩
    refine ⟨⟨hi', hrecord⟩, trivial, fun m hm => ?_⟩
    have hn : ¬ rd.Assignable s t := hno (by simp [hm])
    refine ⟨(hv m hm).blames hls hlt fun ha => hn ?_, hn⟩
    rwa [← Reading.assignableUnder_nil, Reading.assignableUnder_look hf,
      Reading.assignableUnder_nil] at ha

end

section
variable {env : Env} {st : CheckState Env} {s t : Ty} {variance : Variance} {memoize : Bool}

theorem Checked.blames (hs : env.Settled) (hv : ∀ t ∈ env.values, t.Proper)
    (h : Checked (Env.surroundings variance memoize) env st) :
    (blameFrame (env.reading variance) (fun env' => env'.cells = env.cells) env.Plain).Inv st := by
  have hreads := Env.readsWithoutInter hs hv variance memoize
  induction h with
  | fresh => exact ⟨⟨rfl, nofun⟩, nofun⟩
  | @after _ _ _ _ depth _ _ hsp htp hrun ih =>
    have hblames := blaming_check hreads.governs hreads.faithful hreads.noInter depth ih hsp htp
    exact (Settles.of_run hblames hrun).1

/-- A mismatch always shows two types, it names a place if it is about a property, and the first
of its types does not fit the second: a fresh checker says so. -/
theorem check_blames_misfits (hs : env.Settled) (hv : ∀ t ∈ env.values, t.Proper)
    (hst : Checked (Env.surroundings variance memoize) env st) (hsp : env.Plain s)
    (htp : env.Plain t) :
    ∃ bound v st',
      (∀ depth, bound ≤ depth →
        (check (Env.surroundings variance memoize) depth s t).run.run st = (.ok v, st')) ∧
      ∀ m, v = some m → (m.flaw = .missing ∨ m.flaw = .index → m.path ≠ []) ∧
        ∃ a e, m.actual = some a ∧ m.expected = some e ∧
          ∃ bound', ∀ depth, bound' ≤ depth →
            freshAnswers (Env.surroundings variance memoize) depth env [⟨a, e⟩] = .ok [false] := by
  classical
  have hreads := Env.readsWithoutInter hs hv variance memoize
  obtain ⟨hi, hp⟩ := hst.sound hs hv
  obtain ⟨bound, v, st', hrun, -⟩ := hreads.check_ends hi hp hsp htp
  have hblames := blaming_check hreads.governs hreads.faithful hreads.noInter bound
    (hst.blames hs hv) hsp htp
  obtain ⟨-, -, hm⟩ := Settles.of_run hblames (hrun bound (Nat.le_refl _))
  refine ⟨bound, v, st', hrun, fun m he => ?_⟩
  obtain ⟨⟨a, e, hpoints, ha, hae, hn⟩, -⟩ := hm m he
  refine ⟨fun hflaw => hpoints.place ?_, a, e, hpoints.actual, hpoints.expected, ?_⟩
  · rcases hflaw with hflaw | hflaw <;> simp [hflaw]
  · obtain ⟨bound', hfresh⟩ := hreads.freshAnswers_end rfl [⟨a, e⟩] (by simp [ha, hae])
    exact ⟨bound', fun depth hd => by simp [hfresh depth hd, hn]⟩

end

/-- Functions from one kind of streams to the other, which fail at the head of what they take. -/
theorem check_blames_misfits_streams :
    let ctx := Env.surroundings .contravariant true
    let s : Ty := .func [⟨[⟨"x", .ref "Narrow", false, false⟩], .ref "Wide"⟩] none
    let t : Ty := .func [⟨[⟨"x", .ref "Wide", false, false⟩], .ref "Narrow"⟩] none
    streams.Settled ∧ (∀ t ∈ streams.values, t.Proper) ∧ streams.Plain s ∧ streams.Plain t ∧
      (freshAnswers ctx 10 streams [⟨s, t⟩]).toOption = some [false] ∧
      ∃ bound v st',
        (∀ depth, bound ≤ depth →
          (check ctx depth s t).run.run ⟨Memo.empty, streams⟩ = (.ok v, st')) ∧
        ∀ m, v = some m → (m.flaw = .missing ∨ m.flaw = .index → m.path ≠ []) ∧
          ∃ a e, m.actual = some a ∧ m.expected = some e ∧
            ∃ bound', ∀ depth, bound' ≤ depth →
              freshAnswers ctx depth streams [⟨a, e⟩] = .ok [false] := by
  intro ctx s t
  have hs : streams.Settled := by decide
  have hplain : ∀ u ∈ [s, t], streams.Plain u := by
    have hw : ∀ u ∈ [s, t],
        Ty.holdsWithin Ty.WellShaped 2 u ∧ Ty.holdsWithin Ty.NotInter 2 u := by decide
    have hn : ∀ u ∈ streams.values, Ty.holdsWithin Ty.NotInter 3 u := by decide
    exact fun u hu => ⟨Ty.everywhere_of_holdsWithin (hw u hu).1,
      Env.interFree_of_everywhere (fun u hu => Ty.everywhere_of_holdsWithin (hn u hu))
        (Ty.everywhere_of_holdsWithin (hw u hu).2)⟩
  have hsp := hplain s (by simp)
  have htp := hplain t (by simp)
  exact ⟨hs, streams_proper, hsp, htp, by decide +kernel,
    check_blames_misfits hs streams_proper .fresh hsp htp⟩

end ShapeCheck
