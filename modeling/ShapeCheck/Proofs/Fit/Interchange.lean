import ShapeCheck.Proofs.Fit.Related

/-! Equal types are interchangeable: in the rules, in assignability, and under assumptions. A
question that fits by a rule may be assumed while its parts are looked at. -/

namespace ShapeCheck

theorem forall₂_getElem? {α β : Type} {R : α → β → Prop} {as : List α} {bs : List β}
    (h : List.Forall₂ R as bs) (i : Nat) : Option.Rel R as[i]? bs[i]? := by
  induction h generalizing i with
  | nil => exact .none
  | cons hr _ ih =>
    cases i with
    | zero => exact .some hr
    | succ i => exact ih i

/-- Where two options correspond, one that is there has a partner. -/
theorem exists_partner {α β : Type} {R : α → β → Prop} {o : Option α} {o' : Option β} {b : β}
    (h : Option.Rel R o o') (hb : o' = some b) : ∃ a, o = some a ∧ R a b := by
  subst hb
  cases h with
  | some h => exact ⟨_, rfl, h⟩

theorem Field.find?_same {fs gs : List (Field Ty)} (h : List.Forall₂ Field.Same fs gs)
    (n : String) : Option.Rel Field.Same (find? fs n) (find? gs n) := by
  induction h with
  | nil => exact .none
  | @cons f g fs gs hr _ ih =>
    by_cases hn : f.name = n
    · have hg : g.name = n := hr.name ▸ hn
      simpa [find?, hn, hg] using hr
    · have hg : g.name ≠ n := hr.name ▸ hn
      simpa [find?, hn, hg] using ih

namespace Signature.Same
variable {s u : Signature Ty}

theorem rest (h : s.Same u) : Option.Rel Param.Same s.rest? u.rest? := by
  have hl : Option.Rel Param.Same s.params.getLast? u.params.getLast? := by
    rw [List.getLast?_eq_getElem?, List.getLast?_eq_getElem?, h.params.length_eq]
    exact forall₂_getElem? h.params _
  unfold rest?
  generalize s.params.getLast? = p, u.params.getLast? = q at hl
  cases hl with
  | none => exact .none
  | @some p q hpq =>
    simp only [hpq.rest]
    split
    · exact .some hpq
    · exact .none

theorem positional (h : s.Same u) : List.Forall₂ Param.Same s.positional u.positional := by
  have hr := h.rest
  unfold Signature.positional
  generalize s.rest? = p, u.rest? = q at hr
  cases hr with
  | none => exact h.params
  | some _ =>
    rw [List.dropLast_eq_take, List.dropLast_eq_take, h.params.length_eq]
    exact List.forall₂_take _ h.params

end Signature.Same

/-- The admissible types are proper, with references followed to their end whatever the display
names. -/
structure Reading.Faithful (rd : Reading) (Adm : Ty → Prop) : Prop extends rd.Preserves Adm where
  proper : ∀ {t : Ty}, Adm t → t.Proper
  look_same : ∀ {a b : Ty}, a.same b → (rd.look a).same (rd.look b)
  look_look : ∀ t : Ty, rd.look (rd.look t) = rd.look t

/-- Where only references are looked up, equal types stand for equal types. -/
theorem look_same_of_not_ref {look : Ty → Ty} (hl : ∀ t : Ty, (∀ n, t ≠ .ref n) → look t = t)
    {a b : Ty} (h : a.same b) : (look a).same (look b) := by
  by_cases hr : ∃ n, a = .ref n
  · obtain ⟨n, rfl⟩ := hr
    rw [Ty.same_ref_iff.mp h]
    exact Ty.same_refl _
  · have ha : ∀ n, a ≠ .ref n := fun n he => hr ⟨n, he⟩
    have hb : ∀ n, b ≠ .ref n := by
      rintro n rfl
      cases a <;> simp [Ty.same] at h
      exact ha _ rfl
    rwa [hl a ha, hl b hb]

/-- The relation does not tell equal admissible types apart. -/
def Respects (Adm : Ty → Prop) (R : Ty → Ty → Prop) : Prop :=
  ∀ ⦃a a' b b' : Ty⦄, Adm a → Adm a' → Adm b → Adm b' → a.same a' → b.same b' → R a b → R a' b'

namespace Reading
variable {rd : Reading} {Adm : Ty → Prop} {R : Ty → Ty → Prop} {s s' t t' : Ty}

theorem Faithful.symm (hf : rd.Faithful Adm) {a b : Ty} (ha : Adm a) (h : a.same b) : b.same a :=
  Ty.same_symm (hf.proper ha) h

theorem Faithful.element_same (hf : rd.Faithful Adm) {a b : Ty} (h : a.same b) :
    (rd.element a).same (rd.element b) := by
  have hl := hf.look_same h
  unfold element
  generalize rd.look a = a', rd.look b = b' at hl
  cases a' with
  | array e =>
    obtain ⟨e', rfl, he⟩ := Ty.same_array_iff.mp hl
    exact he
  | prim k => cases Ty.same_prim_iff.mp hl; exact Ty.same_refl _
  | literal l => obtain ⟨_, rfl, _⟩ := Ty.same_literal_iff.mp hl; exact Ty.same_refl _
  | tuple es => obtain ⟨_, rfl, _⟩ := Ty.same_tuple_iff.mp hl; exact Ty.same_refl _
  | object fs i n => obtain ⟨_, _, _, rfl, _⟩ := Ty.same_object_iff.mp hl; exact Ty.same_refl _
  | union ms => obtain ⟨_, rfl, _⟩ := Ty.same_union_iff.mp hl; exact Ty.same_refl _
  | inter ms => obtain ⟨_, rfl, _⟩ := Ty.same_inter_iff.mp hl; exact Ty.same_refl _
  | func ss o => obtain ⟨_, _, rfl, _⟩ := Ty.same_func_iff.mp hl; exact Ty.same_refl _
  | ctor ss => obtain ⟨_, rfl, _⟩ := Ty.same_ctor_iff.mp hl; exact Ty.same_refl _
  | ref n => cases Ty.same_ref_iff.mp hl; exact Ty.same_refl _

theorem Faithful.accepted_same (hf : rd.Faithful Adm) {s s' : Signature Ty} (h : s.Same s')
    (i : Nat) :
    Option.Rel (fun a b => Ty.same a b = true) (rd.accepted s i) (rd.accepted s' i) := by
  have hp := forall₂_getElem? h.positional i
  have hr := h.rest
  unfold accepted acceptedBy
  generalize s.positional[i]? = p, s'.positional[i]? = p' at hp
  generalize s.rest? = r, s'.rest? = r' at hr
  cases hp with
  | some hp => exact .some hp.type
  | none =>
    cases hr with
    | none => exact .none
    | some hr => exact .some (hf.element_same hr.type)

theorem ParamFits.same (hR : Respects Adm R) {a a' b b' : Ty} (ha : Adm a) (ha' : Adm a')
    (hb : Adm b) (hb' : Adm b') (h : a.same a') (h' : b.same b') (hp : rd.ParamFits R a b) :
    rd.ParamFits R a' b' := by
  rcases hp with hp | ⟨hv, hp⟩
  · exact .inl (hR ha ha' hb hb' h h' hp)
  · exact .inr ⟨hv, hR hb hb' ha ha' h' h hp⟩

theorem SignatureFits.same (hf : rd.Faithful Adm) (hR : Respects Adm R)
    {s s' u u' : Signature Ty} (hs : ∀ a ∈ s.parts, Adm a) (hs' : ∀ a ∈ s'.parts, Adm a)
    (hu : ∀ a ∈ u.parts, Adm a) (hu' : ∀ a ∈ u'.parts, Adm a) (h : s.Same s') (h' : u.Same u')
    (hfit : rd.SignatureFits R s u) : rd.SignatureFits R s' u' where
  provided i p' a' hp' ha' := by
    obtain ⟨p, hp, hpp⟩ := exists_partner (forall₂_getElem? h'.positional i) hp'
    obtain ⟨a, ha, haa⟩ := exists_partner (hf.accepted_same h i) ha'
    have hpm := Signature.mem_params_of_positional (List.mem_of_getElem? hp)
    have hpm' := Signature.mem_params_of_positional (List.mem_of_getElem? hp')
    exact (hfit.provided i p a hp ha).same hR (hu _ (Signature.type_mem_parts hpm))
      (hu' _ (Signature.type_mem_parts hpm')) (hf.accepted hs ha) (hf.accepted hs' ha') hpp.type haa
  surplus q' hq' := by
    have hd := List.forall₂_drop u.positional.length h.positional
    rw [← h'.positional.length_eq] at hq'
    obtain ⟨q, hq, hqq⟩ := forall₂_mem_right hd hq'
    have hqm := Signature.mem_params_of_positional (List.mem_of_mem_drop hq)
    have hqm' := Signature.mem_params_of_positional (List.mem_of_mem_drop hq')
    have hfq := hfit.surplus q hq
    have hrest := h'.rest
    generalize hr : u.rest? = r, hr' : u'.rest? = r' at hfq hrest ⊢
    cases hrest with
    | none => exact hqq.optional ▸ hfq
    | some hrr =>
      have hrm := Signature.type_mem_parts (Signature.mem_params_of_rest hr)
      have hrm' := Signature.type_mem_parts (Signature.mem_params_of_rest hr')
      exact ParamFits.same hR (hf.element (hu _ hrm)) (hf.element (hu' _ hrm'))
        (hs _ (Signature.type_mem_parts hqm)) (hs' _ (Signature.type_mem_parts hqm'))
        (hf.element_same hrr.type) hqq.type hfq
  rest r' own' hr' hown' := by
    obtain ⟨r, hr, hrr⟩ := exists_partner h'.rest hr'
    obtain ⟨own, hown, hoo⟩ := exists_partner h.rest hown'
    exact (hfit.rest r own hr hown).same hR
      (hu _ (Signature.type_mem_parts (Signature.mem_params_of_rest hr)))
      (hu' _ (Signature.type_mem_parts (Signature.mem_params_of_rest hr')))
      (hs _ (Signature.type_mem_parts (Signature.mem_params_of_rest hown)))
      (hs' _ (Signature.type_mem_parts (Signature.mem_params_of_rest hown'))) hrr.type hoo.type
  result := hR (hs _ s.result_mem_parts) (hs' _ s'.result_mem_parts) (hu _ u.result_mem_parts)
    (hu' _ u'.result_mem_parts) h.result h'.result hfit.result

theorem SignaturesFit.same (hf : rd.Faithful Adm) (hR : Respects Adm R)
    {ss ss' us us' : List (Signature Ty)} (hs : ∀ s ∈ ss, ∀ a ∈ s.parts, Adm a)
    (hs' : ∀ s ∈ ss', ∀ a ∈ s.parts, Adm a) (hu : ∀ u ∈ us, ∀ a ∈ u.parts, Adm a)
    (hu' : ∀ u ∈ us', ∀ a ∈ u.parts, Adm a) (h : List.Forall₂ Signature.Same ss ss')
    (h' : List.Forall₂ Signature.Same us us') (hfit : rd.SignaturesFit R ss us) :
    rd.SignaturesFit R ss' us' := by
  intro u' hum'
  obtain ⟨u, hum, huu⟩ := forall₂_mem_right h' hum'
  obtain ⟨s, hsm, hsu⟩ := hfit u hum
  obtain ⟨s', hsm', hss⟩ := forall₂_mem_left h hsm
  exact ⟨s', hsm', hsu.same hf hR (hs s hsm) (hs' s' hsm') (hu u hum) (hu' u' hum') hss huu⟩

theorem FieldFits.same (hR : Respects Adm R) {fs fs' : List (Field Ty)} {g g' : Field Ty}
    (hs : ∀ f ∈ fs, Adm f.type) (hs' : ∀ f ∈ fs', Adm f.type) (hg : Adm g.type)
    (hg' : Adm g'.type) (h : List.Forall₂ Field.Same fs fs') (h' : g.Same g')
    (hfit : FieldFits R fs g) : FieldFits R fs' g' := by
  have hfind := Field.find?_same h g.name
  unfold FieldFits at hfit ⊢
  rw [← h'.name, ← h'.optional]
  generalize hf : Field.find? fs g.name = f, hf' : Field.find? fs' g.name = f' at hfit hfind ⊢
  cases hfind with
  | none => exact hfit
  | some hff =>
    refine ⟨hff.optional ▸ hfit.1, ?_⟩
    exact hR (hs _ (Field.mem_of_find? hf)) (hs' _ (Field.mem_of_find? hf')) hg hg' hff.type
      h'.type hfit.2

theorem IndexFits.same (hR : Respects Adm R) {fs fs' : List (Field Ty)}
    {own own' wanted wanted' : Option (Index Ty)} (hs : ∀ f ∈ fs, Adm f.type)
    (hs' : ∀ f ∈ fs', Adm f.type) (ho : ∀ i, own = some i → Adm i.value)
    (ho' : ∀ i, own' = some i → Adm i.value) (hw : ∀ i, wanted = some i → Adm i.value)
    (hw' : ∀ i, wanted' = some i → Adm i.value) (h : List.Forall₂ Field.Same fs fs')
    (hown : Option.Rel Index.Same own own') (hwanted : Option.Rel Index.Same wanted wanted')
    (hfit : IndexFits R fs own wanted) : IndexFits R fs' own' wanted' := by
  intro i' hi'
  obtain ⟨i, hi, hii⟩ := exists_partner hwanted hi'
  have hfi := hfit i hi
  refine ⟨fun f' hf' => ?_, fun o' ho'' => ?_⟩
  · obtain ⟨f, hf, hff⟩ := forall₂_mem_right h hf'
    exact hR (hs f hf) (hs' f' hf') (hw i hi) (hw' i' hi') hff.type hii.value (hfi.1 f hf)
  · obtain ⟨o, hoi, hoo⟩ := exists_partner hown ho''
    exact hR (ho o hoi) (ho' o' ho'') (hw i hi) (hw' i' hi') hoo.value hii.value (hfi.2 o hoi)

/-- A rule that applies to two types applies to their equals. -/
theorem FitsBy.same (hf : rd.Faithful Adm) (hR : Respects Adm R) (hs : Adm s) (hs' : Adm s')
    (ht : Adm t) (ht' : Adm t') (h : s.same s') (h' : t.same t') (hfit : rd.FitsBy R s t) :
    rd.FitsBy R s' t' := by
  have hnever : t ≠ Ty.never → t' ≠ Ty.never := by
    rintro hn rfl
    exact hn (Ty.same_prim_iff.mp (hf.symm ht h'))
  cases hfit with
  | equal he => exact .equal (Ty.same_trans (hf.symm hs h) (Ty.same_trans he h'))
  | toAny => cases Ty.same_prim_iff.mp h'; exact .toAny _
  | fromNever => cases Ty.same_prim_iff.mp h; exact .fromNever _
  | fromAny hn => cases Ty.same_prim_iff.mp h; exact .fromAny (hnever hn)
  | undefinedToVoid =>
    cases Ty.same_prim_iff.mp h
    cases Ty.same_prim_iff.mp h'
    exact .undefinedToVoid
  | literalToPrim l =>
    obtain ⟨m, rfl, hlm⟩ := Ty.same_literal_iff.mp h
    cases Ty.same_prim_iff.mp h'
    exact Literal.base_eq_of_same hlm ▸ .literalToPrim m
  | fromUnion hn hm =>
    obtain ⟨ms', rfl, hl, hinc⟩ := Ty.same_union_iff.mp h
    refine .fromUnion (hnever hn) fun m' hm' => ?_
    have hback := Ty.included_back hl (hf.proper hs).here.2
      (fun a ha _ _ => hf.symm (hf.child hs ha)) hinc
    obtain ⟨m, hmem, hmm⟩ := hback m' hm'
    have hma' := hf.child hs' hm'
    exact hR (hf.child hs hmem) hma' ht ht' (hf.symm hma' hmm) h' (hm m hmem)
  | @toUnion _ m ms hn hm hrel =>
    obtain ⟨ms', rfl, _, hinc⟩ := Ty.same_union_iff.mp h'
    obtain ⟨m', hm', hmm⟩ := hinc m hm
    refine .toUnion ?_ hm' (hR hs hs' (hf.child ht hm) (hf.child ht' hm') h hmm hrel)
    rintro ns rfl
    obtain ⟨ns', hns', _⟩ := Ty.same_union_iff.mp (hf.symm hs h)
    exact hn ns' hns'
  | arrays hab =>
    obtain ⟨a', rfl, haa⟩ := Ty.same_array_iff.mp h
    obtain ⟨b', rfl, hbb⟩ := Ty.same_array_iff.mp h'
    have hc : ∀ {e : Ty}, Adm (.array e) → Adm e := fun he =>
      hf.child he (Ty.element_mem_children _)
    exact .arrays (hR (hc hs) (hc hs') (hc ht) (hc ht') haa hbb hab)
  | tupleToArray hab =>
    obtain ⟨as', rfl, haa⟩ := Ty.same_tuple_iff.mp h
    obtain ⟨b', rfl, hbb⟩ := Ty.same_array_iff.mp h'
    refine .tupleToArray fun a' ha' => ?_
    obtain ⟨a, ha, haa⟩ := forall₂_mem_right haa ha'
    exact hR (hf.child hs ha) (hf.child hs' ha') (hf.child ht (Ty.element_mem_children _))
      (hf.child ht' (Ty.element_mem_children _)) haa hbb (hab a ha)
  | @tuples as bs hab =>
    obtain ⟨as', rfl, haa⟩ := Ty.same_tuple_iff.mp h
    obtain ⟨bs', rfl, hbb⟩ := Ty.same_tuple_iff.mp h'
    refine .tuples (List.forall₂_iff_get.mpr ⟨?_, fun i hi hi' => ?_⟩)
    · rw [← haa.length_eq, ← hbb.length_eq, hab.length_eq]
    · have hia : i < as.length := haa.length_eq ▸ hi
      have hib : i < bs.length := hbb.length_eq ▸ hi'
      exact hR (hf.child hs (List.get_mem as ⟨i, hia⟩)) (hf.child hs' (List.get_mem as' ⟨i, hi⟩))
        (hf.child ht (List.get_mem bs ⟨i, hib⟩)) (hf.child ht' (List.get_mem bs' ⟨i, hi'⟩))
        (haa.get hia hi) (hbb.get hib hi') (hab.get hia hib)
  | objects hfs hi =>
    obtain ⟨fs', own', n', rfl, hff, hoo⟩ := Ty.same_object_iff.mp h
    obtain ⟨gs', wanted', m', rfl, hgg, hww⟩ := Ty.same_object_iff.mp h'
    refine .objects (fun g' hg' => ?_) ?_
    · obtain ⟨g, hg, hgs⟩ := forall₂_mem_right hgg hg'
      exact (hfs g hg).same hR (hf.field hs) (hf.field hs') (hf.field ht g hg)
        (hf.field ht' g' hg') hff hgs
    · exact hi.same hR (hf.field hs) (hf.field hs') (hf.index hs) (hf.index hs') (hf.index ht)
        (hf.index ht') hff hoo hww
  | functions hrec hsig =>
    obtain ⟨ss', own', rfl, hss, hoo⟩ := Ty.same_func_iff.mp h
    obtain ⟨us', wanted', rfl, huu, hww⟩ := Ty.same_func_iff.mp h'
    refine .functions (fun o' w' ho' hw' => ?_) ?_
    · obtain ⟨o, ho, hoo⟩ := exists_partner hoo ho'
      obtain ⟨w, hw, hww⟩ := exists_partner hww hw'
      exact hR (hf.receiver ht w hw) (hf.receiver ht' w' hw') (hf.receiver hs o ho)
        (hf.receiver hs' o' ho') hww hoo (hrec o w ho hw)
    · exact hsig.same hf hR (hf.signature hs) (hf.signature hs') (hf.signature ht)
        (hf.signature ht') hss huu
  | constructors hsig =>
    obtain ⟨ss', rfl, hss⟩ := Ty.same_ctor_iff.mp h
    obtain ⟨us', rfl, huu⟩ := Ty.same_ctor_iff.mp h'
    exact .constructors (hsig.same hf hR (hf.newSignature hs) (hf.newSignature hs')
      (hf.newSignature ht) (hf.newSignature ht') hss huu)

end Reading
end ShapeCheck
