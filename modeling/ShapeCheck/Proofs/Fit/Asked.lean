import ShapeCheck.Proofs.Fit.Fits

/-! Which questions a question leads to. A rule for two single types asks about pairs of their parts
only, so it does the same with anything that answers these alike. -/

namespace ShapeCheck
variable {σ α : Type} {ctx : Surroundings σ} {ask ask' : Ask σ} {R R' : Ty → Ty → Prop}
  {Part : Ty → Prop} {variance : Variance} {a b s t u : Ty} {ms : List Ty} {fs gs : List (Field Ty)}

namespace Ty

/-- What a rest parameter takes one of. -/
def element : Ty → Ty
  | .array e => e
  | _ => any

/-- The parts of a callable, and what those take that are rest parameters. -/
def pieces (t : Ty) : List Ty := t.children ++ t.children.map element

def isCallable : Ty → Bool
  | .func .. | .ctor _ => true
  | _ => false

/-- The pairs that may be compared when two single types are: of two callables, any parts. -/
inductive Pairs : Ty → Ty → Ty → Ty → Prop
  | arrays {a e : Ty} : Pairs (.array a) (.array e) a e
  | tupleToArray {as : List Ty} {a e : Ty} (ha : a ∈ as) : Pairs (.tuple as) (.array e) a e
  | tuples {as es : List Ty} {a e : Ty} (h : (a, e) ∈ as.zip es) :
    Pairs (.tuple as) (.tuple es) a e
  | property {fs gs : List (Field Ty)} {i w : Option (Index Ty)} {n x : Option String}
    {f g : Field Ty} (hg : g ∈ gs) (hf : Field.find? fs g.name = some f) :
    Pairs (.object fs i n) (.object gs w x) f.type g.type
  | underIndex {fs gs : List (Field Ty)} {i : Option (Index Ty)} {j : Index Ty}
    {n x : Option String} {f : Field Ty} (hf : f ∈ fs) :
    Pairs (.object fs i n) (.object gs (some j) x) f.type j.value
  | indexes {fs gs : List (Field Ty)} {i j : Index Ty} {n x : Option String} :
    Pairs (.object fs (some i) n) (.object gs (some j) x) i.value j.value
  | callables {s t a b : Ty} (hs : s.isCallable) (ht : t.isCallable) (ha : a ∈ s.pieces)
    (hb : b ∈ t.pieces) : Pairs s t a b
  | callablesBack {s t a b : Ty} (hs : s.isCallable) (ht : t.isCallable) (ha : a ∈ s.pieces)
    (hb : b ∈ t.pieces) : Pairs s t b a

/-- The pairs that are compared when the properties of a type are merged: what was merged before
with what a member adds, and the other way round if that does not fit. -/
inductive Merges (R : Ty → Ty → Prop) : Ty → Ty → Ty → Prop
  | forth {ms ns : List Ty} {m : Ty} {acc es : List (Field Ty)} {f g : Field Ty}
    (hn : ns ++ [m] <+: ms) (hacc : (Ty.inter ns).offersBy R = some acc)
    (he : m.offersBy R = some es) (hf : f ∈ es) (hg : Field.find? acc f.name = some g) :
    Merges R (.inter ms) g.type f.type
  | back {ms ns : List Ty} {m : Ty} {acc es : List (Field Ty)} {f g : Field Ty}
    (hn : ns ++ [m] <+: ms) (hacc : (Ty.inter ns).offersBy R = some acc)
    (he : m.offersBy R = some es) (hf : f ∈ es) (hg : Field.find? acc f.name = some g)
    (hno : ¬R g.type f.type) : Merges R (.inter ms) f.type g.type
  | member {ms : List Ty} {m a b : Ty} (hm : m ∈ ms) (h : Merges R m a b) :
    Merges R (.inter ms) a b
  | variant {ms : List Ty} {m a b : Ty} (hm : m ∈ ms) (h : Merges R m a b) :
    Merges R (.union ms) a b

/-- The questions that a question may lead to, if it is not settled at once. -/
inductive Subquestion (R : Ty → Ty → Prop) : Ty → Ty → Ty → Ty → Prop
  | fromUnion {ms : List Ty} {m t : Ty} (hm : m ∈ ms) : Subquestion R (.union ms) t m t
  | toUnion {us : List Ty} {s u : Ty} (hs : ∀ ms, s ≠ .union ms) (hu : u ∈ us) :
    Subquestion R s (.union us) s u
  | toInter {us : List Ty} {s u : Ty} (hs : ∀ ms, s ≠ .union ms) (hu : u ∈ us) :
    Subquestion R s (.inter us) s u
  | member {ms : List Ty} {m t : Ty} (hb : t.isBlend = false)
    (hc : t.IsObject → combinedBy R (.inter ms) = none) (hm : m ∈ ms) :
    Subquestion R (.inter ms) t m t
  | merge {ms : List Ty} {t a b : Ty} (ht : t.IsObject) (h : Merges R (.inter ms) a b) :
    Subquestion R (.inter ms) t a b
  | index {ms : List Ty} {t : Ty} {fs : List (Field Ty)} {f : Field Ty} {j : Index Ty}
    (ht : t.IsObject) (ho : (Ty.inter ms).offersBy R = some fs)
    (hj : (Ty.inter ms).soleIndex = some j) (hf : f ∈ fs) :
    Subquestion R (.inter ms) t f.type j.value
  | combined {ms : List Ty} {t shape : Ty} (ht : t.IsObject)
    (hc : combinedBy R (.inter ms) = some shape) : Subquestion R (.inter ms) t shape t
  | pair {s t a b : Ty} (h : Pairs s t a b) : Subquestion R s t a b

/-- The questions that may come up once a question is asked. -/
inductive Asked (variance : Variance) (s t : Ty) : Ty → Ty → Prop
  | here : Asked variance s t s t
  | next {a b c d : Ty} (h : Asked variance s t a b) (hopen : Rule.immediate a b = none)
    (hl : Subquestion (Fits variance) a b c d) : Asked variance s t c d

/-- Questions about types without references that lead to questions of the same kind only. -/
structure SubquestionClosed (R : Ty → Ty → Prop) (Q : Ty → Ty → Prop) : Prop where
  within : ∀ {s t : Ty}, Q s t → Within .unnamed s ∧ Within .unnamed t
  leads : ∀ {s t a b : Ty}, Q s t → Rule.immediate s t = none → Subquestion R s t a b → Q a b

/-- Equal questions of some kind have the same answer. -/
def EqualAnswers (Q R : Ty → Ty → Prop) : Prop :=
  ∀ ⦃a a' b b' : Ty⦄, Q a b → Q a' b' → a.same a' → b.same b' → R a b → R a' b'

/-! The types that a question leads to. -/

theorem mem_pieces (hany : Part any) (hchild : ∀ {t u : Ty}, Part t → u ∈ t.children → Part u)
    (ht : Part t) (hu : u ∈ t.pieces) : Part u := by
  rcases List.mem_append.mp hu with hu | hu
  · exact hchild ht hu
  · obtain ⟨v, hv, rfl⟩ := List.mem_map.mp hu
    cases v with
    | array e => exact hchild (hchild ht hv) (element_mem_children e)
    | _ => exact hany

section
variable (hP : ComparisonClosed R Part)
include hP

theorem Merges.closed (h : Merges R t a b) (ht : Part t) : Part a ∧ Part b := by
  have hmerged : ∀ {ms ns : List Ty} {m : Ty} {acc es : List (Field Ty)} {f g : Field Ty},
      Part (.inter ms) → ns ++ [m] <+: ms → (Ty.inter ns).offersBy R = some acc →
      m.offersBy R = some es → f ∈ es → Field.find? acc f.name = some g →
      Part g.type ∧ Part f.type := by
    intro ms ns m acc es f g ht hn hacc he hf hg
    refine ⟨hP.merged ht ((List.prefix_append ns [m]).trans hn) hacc g (Field.mem_of_find? hg), ?_⟩
    exact ((hP.offersBy (hP.child ht (hn.subset (by simp))) he).type f hf).1
  induction h with
  | forth hn hacc he hf hg => exact hmerged ht hn hacc he hf hg
  | back hn hacc he hf hg _ => exact (hmerged ht hn hacc he hf hg).symm
  | member hm _ ih => exact ih (hP.child ht hm)
  | variant hm _ ih => exact ih (hP.child ht hm)

theorem Pairs.closed (h : Pairs s t a b) (hs : Part s) (ht : Part t) : Part a ∧ Part b := by
  cases h with
  | arrays => exact ⟨hP.child hs (element_mem_children _), hP.child ht (element_mem_children _)⟩
  | tupleToArray ha => exact ⟨hP.child hs ha, hP.child ht (element_mem_children _)⟩
  | tuples h => exact ⟨hP.child hs (List.of_mem_zip h).1, hP.child ht (List.of_mem_zip h).2⟩
  | property hg hf =>
    exact ⟨hP.child hs (field_mem_children (Field.mem_of_find? hf)),
      hP.child ht (field_mem_children hg)⟩
  | underIndex hf =>
    exact ⟨hP.child hs (field_mem_children hf), hP.child ht (value_mem_children rfl)⟩
  | indexes => exact ⟨hP.child hs (value_mem_children rfl), hP.child ht (value_mem_children rfl)⟩
  | callables _ _ ha hb =>
    exact ⟨mem_pieces hP.any hP.child hs ha, mem_pieces hP.any hP.child ht hb⟩
  | callablesBack _ _ ha hb =>
    exact ⟨mem_pieces hP.any hP.child ht hb, mem_pieces hP.any hP.child hs ha⟩

theorem Subquestion.closed (h : Subquestion R s t a b) (hs : Part s) (ht : Part t) :
    Part a ∧ Part b := by
  cases h with
  | fromUnion hm => exact ⟨hP.child hs hm, ht⟩
  | toUnion _ hu => exact ⟨hs, hP.child ht hu⟩
  | toInter _ hu => exact ⟨hs, hP.child ht hu⟩
  | member _ _ hm => exact ⟨hP.child hs hm, ht⟩
  | merge _ h => exact h.closed hP hs
  | index _ ho hj hf => exact ⟨((hP.offersBy hs ho).type _ hf).1, (hP.soleIndex hs hj).1⟩
  | combined _ hc => exact ⟨hP.combined hs hc, ht⟩
  | pair h => exact h.closed hP hs ht

/-! Relations that agree about the types lead to the same questions. -/

theorem Merges.congr (hR : ∀ a b, Part a → Part b → (R a b ↔ R' a b)) (h : Merges R t a b)
    (ht : Part t) : Merges R' t a b := by
  have hoffers : ∀ {u : Ty}, Part u → u.offersBy R = u.offersBy R' := fun hu =>
    hP.offersBy_congr hu fun a b ha hb => hR a b ha.1 hb.1
  have hmember : ∀ {ms ns : List Ty} {m : Ty}, Part (.inter ms) → ns ++ [m] <+: ms →
      (Ty.inter ns).offersBy R = (Ty.inter ns).offersBy R' ∧ m.offersBy R = m.offersBy R' :=
    fun ht hn => ⟨hP.merged_congr ht ((List.prefix_append _ _).trans hn)
      (fun m hm => hoffers (hP.child ht hm)) fun a b ha hb => hR a b ha.1 hb.1,
      hoffers (hP.child ht (hn.subset (by simp)))⟩
  induction h with
  | forth hn hacc he hf hg =>
    obtain ⟨hbefore, hhere⟩ := hmember ht hn
    exact .forth hn (hbefore ▸ hacc) (hhere ▸ he) hf hg
  | back hn hacc he hf hg hno =>
    obtain ⟨hbefore, hhere⟩ := hmember ht hn
    obtain ⟨hgt, hft⟩ := (Merges.forth hn hacc he hf hg).closed hP ht
    exact .back hn (hbefore ▸ hacc) (hhere ▸ he) hf hg (mt (hR _ _ hgt hft).mpr hno)
  | member hm _ ih => exact .member hm (ih (hP.child ht hm))
  | variant hm _ ih => exact .variant hm (ih (hP.child ht hm))

theorem Subquestion.congr (hR : ∀ a b, Part a → Part b → (R a b ↔ R' a b))
    (h : Subquestion R s t a b) (hs : Part s) : Subquestion R' s t a b := by
  have hcombined : combinedBy R s = combinedBy R' s :=
    hP.combinedBy_congr hs fun a b ha hb => hR a b ha.1 hb.1
  cases h with
  | fromUnion hm => exact .fromUnion hm
  | toUnion hns hu => exact .toUnion hns hu
  | toInter hns hu => exact .toInter hns hu
  | member hb hc hm => exact .member hb (fun ho => hcombined ▸ hc ho) hm
  | merge ho h => exact .merge ho (h.congr hP hR hs)
  | index ht ho hj hf =>
    have hoffers := hP.offersBy_congr hs fun a b ha hb => hR a b ha.1 hb.1
    exact .index ht (hoffers ▸ ho) hj hf
  | combined ho hc => exact .combined ho (hcombined ▸ hc)
  | pair h => exact .pair h

end

theorem Asked.closed (hP : ComparisonClosed (Fits variance) Part) (h : Asked variance s t a b)
    (hs : Part s) (ht : Part t) : Part a ∧ Part b := by
  induction h with
  | here => exact ⟨hs, ht⟩
  | next _ _ hl ih => exact hl.closed hP ih.1 ih.2

theorem questions_asked (hs : Within .unnamed s) (ht : Within .unnamed t) :
    SubquestionClosed (Fits variance) (Asked variance s t) where
  within h := h.closed closed_unnamed hs ht
  leads := .next

end Ty

/-! What rules do with the pairs that they ask about. -/

namespace CheckM

theorem firstMisfit_congr {f g : α → CheckM σ Verdict} {xs : List α} (h : ∀ x ∈ xs, f x = g x) :
    firstMisfit f xs = firstMisfit g xs := by
  induction xs with
  | nil => rfl
  | cons x xs ih =>
    obtain ⟨hx, hxs⟩ := List.forall_mem_cons.mp h
    simp only [firstMisfit, hx, ih hxs]

theorem someFits_congr {f g : α → CheckM σ Verdict} {xs : List α} (h : ∀ x ∈ xs, f x = g x) :
    someFits f xs = someFits g xs := by
  induction xs with
  | nil => rfl
  | cons x xs ih =>
    obtain ⟨hx, hxs⟩ := List.forall_mem_cons.mp h
    simp only [someFits, hx, ih hxs]

theorem bestOf_congr {f g : α → CheckM σ Verdict} {xs : List α} (h : ∀ x ∈ xs, f x = g x) :
    bestOf f xs = bestOf g xs := by
  cases xs with
  | nil => rfl
  | cons x xs =>
    obtain ⟨hx, hxs⟩ := List.forall_mem_cons.mp h
    simp only [bestOf, hx, someFits_congr hxs]

end CheckM

namespace Rule

theorem pointwise_congr {pairs : List (Ty × Ty)} (h : ∀ p ∈ pairs, ask p.1 p.2 = ask' p.1 p.2) :
    pointwise ask pairs = pointwise ask' pairs := by
  refine CheckM.firstMisfit_congr fun x hx => ?_
  simp only [h x.1 (List.fst_mem_of_mem_zipIdx hx)]

theorem wantedField_congr {g : Field Ty}
    (h : ∀ f, Field.find? fs g.name = some f → ask f.type g.type = ask' f.type g.type) :
    wantedField ask s t fs g = wantedField ask' s t fs g := by
  unfold wantedField
  cases hf : Field.find? fs g.name with
  | none => rfl
  | some f => simp only [h f hf]

theorem indexed_congr {own wanted : Option (Index Ty)}
    (hf : ∀ j, wanted = some j → ∀ f ∈ fs, ask f.type j.value = ask' f.type j.value)
    (ho : ∀ i j, own = some i → wanted = some j → ask i.value j.value = ask' i.value j.value) :
    indexed ask fs own wanted = indexed ask' fs own wanted := by
  cases wanted with
  | none => rfl
  | some j =>
    have hfields : CheckM.firstMisfit (fun f => underIndex ask j.value f.type (.field f.name)) fs =
        CheckM.firstMisfit (fun f => underIndex ask' j.value f.type (.field f.name)) fs :=
      CheckM.firstMisfit_congr fun f hm => by simp only [underIndex, hf j rfl f hm]
    cases own with
    | none => simp only [indexed, hfields]
    | some i =>
      have hown : underIndex ask j.value i.value .key = underIndex ask' j.value i.value .key := by
        simp only [underIndex, ho i j rfl rfl]
      simp only [indexed, hfields, hown]

section
variable {A B : Ty → Prop} (hask : ∀ a b, A a → B b → ask a b = ask' a b ∧ ask b a = ask' b a)
include hask

theorem parameter_congr {p q : Ty} (hp : B p) (hq : A q) :
    parameter ctx ask p q = parameter ctx ask' p q := by
  simp only [parameter, (hask q p hq hp).1, (hask q p hq hp).2]

theorem receivers_congr {own wanted : Option Ty} (hs : ∀ u, own = some u → A u)
    (ht : ∀ u, wanted = some u → B u) :
    receivers ask own wanted = receivers ask' own wanted := by
  cases own with
  | none => rfl
  | some a =>
    cases wanted with
    | none => rfl
    | some b => simp only [receivers, (hask a b (hs a rfl) (ht b rfl)).2]

variable (helement : ∀ u, A u ∨ B u → elementOf ctx u = pure u.element)
include helement

theorem provided_congr {rest : Option (Param Ty)} {ps qs : List (Param Ty)}
    (hr : ∀ r, rest = some r → A r.type ∧ A r.type.element) (hp : ∀ p ∈ ps, B p.type)
    (hq : ∀ q ∈ qs, A q.type) :
    provided ctx ask rest ps qs = provided ctx ask' rest ps qs := by
  induction ps generalizing qs with
  | nil => simp only [provided]
  | cons p ps ih =>
    obtain ⟨hp, hps⟩ := List.forall_mem_cons.mp hp
    cases qs with
    | cons q qs =>
      obtain ⟨hq, hqs⟩ := List.forall_mem_cons.mp hq
      simp only [provided, parameter_congr hask hp hq, ih hps hqs]
    | nil =>
      cases rest with
      | none => simp only [provided, ih hps hq]
      | some r =>
        obtain ⟨hr, he⟩ := hr r rfl
        simp only [provided, helement _ (.inl hr), pure_bind, parameter_congr hask hp he, ih hps hq]

theorem surplus_congr {source target : Signature Ty} (hs : ∀ u ∈ source.parts, A u)
    (ht : ∀ u ∈ target.parts, B u ∧ B u.element) :
    surplus ctx ask source target = surplus ctx ask' source target := by
  unfold surplus
  dsimp only
  cases hr : target.rest? with
  | none => rfl
  | some r =>
    obtain ⟨hrt, he⟩ := ht _ (Signature.type_mem_parts (Signature.mem_params_of_rest hr))
    have hextra : CheckM.firstMisfit
        (fun p => CheckM.within (.param p.name) (parameter ctx ask r.type.element p.type))
          (source.positional.drop target.positional.length) =
        CheckM.firstMisfit
        (fun p => CheckM.within (.param p.name) (parameter ctx ask' r.type.element p.type))
          (source.positional.drop target.positional.length) := by
      refine CheckM.firstMisfit_congr fun p hp => ?_
      have hps := hs _ (Signature.type_mem_parts
        (Signature.mem_params_of_positional (List.mem_of_mem_drop hp)))
      simp only [parameter_congr hask he hps]
    simp only [helement _ (.inr hrt), pure_bind, hextra]
    cases ho : source.rest? with
    | none => rfl
    | some own =>
      have hown := hs _ (Signature.type_mem_parts (Signature.mem_params_of_rest ho))
      simp only [parameter_congr hask hrt hown]

theorem signature_congr {source target : Signature Ty}
    (hs : ∀ u ∈ source.parts, A u ∧ A u.element) (ht : ∀ u ∈ target.parts, B u ∧ B u.element) :
    signature ctx ask source target = signature ctx ask' source target := by
  have hrest : ∀ r, source.rest? = some r → A r.type ∧ A r.type.element := fun r hr =>
    hs _ (Signature.type_mem_parts (Signature.mem_params_of_rest hr))
  have hprovided : provided ctx ask source.rest? target.positional source.positional =
      provided ctx ask' source.rest? target.positional source.positional :=
    provided_congr hask helement hrest
      (fun p hp => (ht _ (Signature.type_mem_parts (Signature.mem_params_of_positional hp))).1)
      fun q hq => (hs _ (Signature.type_mem_parts (Signature.mem_params_of_positional hq))).1
  have hresult := hask source.result target.result (hs _ source.result_mem_parts).1
    (ht _ target.result_mem_parts).1
  simp only [signature, hprovided, surplus_congr hask helement (fun u hu => (hs u hu).1) ht,
    hresult.1]

theorem signatures_congr {ss us : List (Signature Ty)}
    (hs : ∀ s ∈ ss, ∀ u ∈ s.parts, A u ∧ A u.element)
    (hu : ∀ s ∈ us, ∀ u ∈ s.parts, B u ∧ B u.element) :
    signatures ctx ask s t ss us = signatures ctx ask' s t ss us := by
  have hall : CheckM.firstMisfit (fun u => CheckM.bestOf (fun s => signature ctx ask s u) ss) us =
      CheckM.firstMisfit (fun u => CheckM.bestOf (fun s => signature ctx ask' s u) ss) us :=
    CheckM.firstMisfit_congr fun u hum => CheckM.bestOf_congr fun s hsm =>
      signature_congr hask helement (hs s hsm) (hu u hum)
  simp only [signatures, hall]

end

/-- A rule for two single types asks about the pairs that these are compared by. -/
theorem plain_congr (hc : ∀ {t : Ty}, (∀ n, t ≠ .ref n) → ctx.unwrap t = pure t)
    (hs : Ty.Within .unnamed s) (ht : Ty.Within .unnamed t) (hsi : ∀ ms, s ≠ .inter ms)
    (hask : ∀ a b, Ty.Pairs s t a b → ask a b = ask' a b) (k : Nat) :
    plain ctx ask k s t = plain ctx ask' k s t := by
  have hcallable : s.isCallable → t.isCallable → ∀ a b, a ∈ s.pieces → b ∈ t.pieces →
      ask a b = ask' a b ∧ ask b a = ask' b a := fun hsc htc a b ha hb =>
    ⟨hask a b (.callables hsc htc ha hb), hask b a (.callablesBack hsc htc ha hb)⟩
  have helement : ∀ u, u ∈ s.pieces ∨ u ∈ t.pieces → elementOf ctx u = pure u.element := by
    intro u hu
    have hwithin : Ty.Within .unnamed u := by
      rcases hu with hu | hu
      · exact Ty.mem_pieces (Ty.within_prim _) (fun h hv => h.child hv) hs hu
      · exact Ty.mem_pieces (Ty.within_prim _) (fun h hv => h.child hv) ht hu
    have hresolve := Surroundings.resolve_eq (hc hwithin.not_ref)
    simp only [elementOf, hresolve, pure_bind]
    cases u <;> rfl
  have hpieces : ∀ {v u : Ty}, u ∈ v.children → u ∈ v.pieces ∧ u.element ∈ v.pieces := fun hu =>
    ⟨List.mem_append_left _ hu, List.mem_append_right _ (List.mem_map_of_mem hu)⟩
  cases t with
  | array e =>
    cases s with
    | array a => simp only [plain, toArray, hask a e .arrays]
    | tuple as =>
      simp only [plain, toArray]
      refine pointwise_congr fun p hp => ?_
      obtain ⟨a, ha, rfl⟩ := List.mem_map.mp hp
      exact hask a e (.tupleToArray ha)
    | inter ms => exact (hsi ms rfl).elim
    | _ => rfl
  | tuple es =>
    cases s with
    | tuple as =>
      simp only [plain, toTuple, pointwise_congr fun p hp => hask p.1 p.2 (.tuples hp)]
    | inter ms => exact (hsi ms rfl).elim
    | _ => rfl
  | object gs w x =>
    cases s with
    | object fs i n =>
      have hwanted : CheckM.firstMisfit
          (wantedField ask (.object fs i n) (.object gs w x) fs) gs =
          CheckM.firstMisfit (wantedField ask' (.object fs i n) (.object gs w x) fs) gs :=
        CheckM.firstMisfit_congr fun g hg => wantedField_congr fun f hf =>
          hask _ _ (.property hg hf)
      have hindexed : indexed ask fs i w = indexed ask' fs i w := by
        refine indexed_congr ?_ ?_
        · rintro j rfl f hf
          exact hask _ _ (.underIndex hf)
        · rintro i j rfl rfl
          exact hask _ _ .indexes
      simp only [plain, toObject, hwanted, hindexed]
    | inter ms => exact (hsi ms rfl).elim
    | _ => rfl
  | func us wanted =>
    cases s with
    | func ss own =>
      have hpairs := hcallable rfl rfl
      have hreceivers : receivers ask own wanted = receivers ask' own wanted :=
        receivers_congr hpairs (fun u hu => (hpieces (Ty.receiver_mem_children hu)).1)
          fun u hu => (hpieces (Ty.receiver_mem_children hu)).1
      simp only [plain, toFunc, hreceivers, signatures_congr hpairs helement
        (fun s hs u hu => hpieces (Ty.part_mem_children_func hs hu))
        fun s hs u hu => hpieces (Ty.part_mem_children_func hs hu)]
    | inter ms => exact (hsi ms rfl).elim
    | _ => rfl
  | ctor us =>
    cases s with
    | ctor ss =>
      simp only [plain, toCtor, signatures_congr (hcallable rfl rfl) helement
        (fun s hs u hu => hpieces (Ty.part_mem_children_ctor hs hu))
        fun s hs u hu => hpieces (Ty.part_mem_children_ctor hs hu)]
    | inter ms => exact (hsi ms rfl).elim
    | _ => rfl
  | _ =>
    cases s with
    | inter ms => exact (hsi ms rfl).elim
    | _ => rfl

end Rule
end ShapeCheck
