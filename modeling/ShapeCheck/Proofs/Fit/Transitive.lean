import ShapeCheck.Proofs.Fit.History
import ShapeCheck.Proofs.Fit.InterRefFree

/-! Assignability is transitive among types without `any`, references and intersections in which
every property and parameter is required and nothing else may be passed or read. -/

namespace ShapeCheck

/-- Every parameter must be given, and one argument goes to each. -/
def Signature.Mandatory (s : Signature Ty) : Prop :=
  ∀ p ∈ s.params, p.optional = false ∧ p.rest = false

instance (s : Signature Ty) : Decidable s.Mandatory :=
  inferInstanceAs (Decidable (∀ p ∈ s.params, p.optional = false ∧ p.rest = false))

namespace Ty
variable {t u : Ty}

/-- What a strict type looks like on its outside. -/
def Exact : Ty → Prop
  | .prim k => k ≠ .any
  | .inter _ | .ref _ => False
  | .object fs index _ => index.isNone ∧ ∀ f ∈ fs, f.optional = false
  | .func ss receiver => receiver.isNone ∧ ∀ s ∈ ss, s.Mandatory
  | .ctor ss => ∀ s ∈ ss, s.Mandatory
  | _ => True

instance : DecidablePred Exact
  | .prim k => inferInstanceAs (Decidable (k ≠ .any))
  | .inter _ | .ref _ => isFalse id
  | .object fs index _ =>
    inferInstanceAs (Decidable (index.isNone ∧ ∀ f ∈ fs, f.optional = false))
  | .func ss receiver => inferInstanceAs (Decidable (receiver.isNone ∧ ∀ s ∈ ss, s.Mandatory))
  | .ctor ss => inferInstanceAs (Decidable (∀ s ∈ ss, s.Mandatory))
  | .literal _ | .array _ | .tuple _ | .union _ => isTrue trivial

/-- A type that can be built, without `any`, references and intersections, whose properties and
parameters are all required, and without indexes, rest parameters and receivers. -/
structure Strict (t : Ty) : Prop where
  proper : t.Proper
  exact : Everywhere Exact t

theorem Strict.child (h : t.Strict) (hu : u ∈ t.children) : u.Strict :=
  ⟨h.proper.child hu, h.exact.child hu⟩

theorem Strict.interRefFree (h : t.Strict) : t.InterRefFree := by
  refine ⟨h.proper, ?_⟩
  have he := h.exact
  induction he with
  | @mk t here _ ih =>
    refine .mk ⟨?_, ?_⟩ fun u hu => ih u hu (h.child hu)
    · rintro ms rfl
      exact here
    · rintro n rfl
      exact here

end Ty

namespace Signature.Mandatory
variable {s : Signature Ty}

theorem rest (h : s.Mandatory) : s.rest? = none := by
  cases hr : s.rest? with
  | none => rfl
  | some p =>
    have hp := (h p (mem_params_of_rest hr)).2
    unfold rest? at hr
    split at hr
    · rename_i q hq
      split at hr
      · cases hr
        simp_all
      · cases hr
    · cases hr

theorem positional (h : s.Mandatory) : s.positional = s.params := by
  unfold Signature.positional
  rw [h.rest]

end Signature.Mandatory

namespace Reading
variable {s t u : Ty}

/-- Assignable, or by way of one strict type. -/
def Linked (s u : Ty) : Prop :=
  verbatim.Assignable s u ∨ s.Strict ∧ u.Strict ∧
    ∃ t : Ty, t.Strict ∧ verbatim.Assignable s t ∧ verbatim.Assignable t u

theorem linked_of_assignable (h : verbatim.FitsBy verbatim.Assignable s u) :
    verbatim.FitsBy Linked s u := h.mono fun _ _ => .inl

/-- No parameter is left over when one signature stands for another. -/
theorem SignatureFits.length_le {a b : Signature Ty} {R : Ty → Ty → Prop} (ha : a.Mandatory)
    (hb : b.Mandatory) (h : verbatim.SignatureFits R a b) :
    a.params.length ≤ b.params.length := by
  by_contra hlt
  have hq : a.params[b.params.length]? = some a.params[b.params.length] :=
    List.getElem?_eq_getElem (by omega)
  have hdrop : a.params[b.params.length] ∈ a.positional.drop b.positional.length := by
    rw [ha.positional, hb.positional]
    exact List.mem_of_getElem? (i := 0) (by rw [List.getElem?_drop]; exact hq)
  have hs := h.surplus _ hdrop
  rw [hb.rest] at hs
  have hopt := (ha _ (List.mem_of_getElem? hq)).1
  rw [show a.params[b.params.length].optional = true from hs] at hopt
  cases hopt

theorem SignatureFits.trans {a b c : Signature Ty} (ha : a.Mandatory) (hb : b.Mandatory)
    (hc : c.Mandatory) (hap : ∀ x ∈ a.parts, x.Strict) (hbp : ∀ x ∈ b.parts, x.Strict)
    (hcp : ∀ x ∈ c.parts, x.Strict) (hab : verbatim.SignatureFits verbatim.Assignable a b)
    (hbc : verbatim.SignatureFits verbatim.Assignable b c) :
    verbatim.SignatureFits Linked a c where
  provided i p x hp hx := by
    have hle := hab.length_le ha hb
    simp only [accepted, ha.rest, ha.positional, acceptedBy] at hx
    rw [hc.positional] at hp
    cases hq : a.params[i]? with
    | none => simp [hq] at hx
    | some q =>
      rw [hq] at hx
      cases hx
      obtain ⟨hi, -⟩ := List.getElem?_eq_some_iff.mp hq
      have hr : b.params[i]? = some b.params[i] := List.getElem?_eq_getElem (by omega)
      -- the arguments of the outer signature pass through the one in between
      have hpr := hbc.provided i p b.params[i].type (by rwa [hc.positional])
        (by simp [accepted, acceptedBy, hb.positional, hr])
      have hrq := hab.provided i b.params[i] q.type (by rwa [hb.positional])
        (by simp [accepted, acceptedBy, ha.positional, hq])
      have hpm := hcp _ (Signature.type_mem_parts (List.mem_of_getElem? hp))
      have hrm := hbp _ (Signature.type_mem_parts (List.mem_of_getElem? hr))
      have hqm := hap _ (Signature.type_mem_parts (List.mem_of_getElem? hq))
      rcases hpr with hpr | ⟨hv, _⟩
      · rcases hrq with hrq | ⟨hv, _⟩
        · exact .inl (.inr ⟨hpm, hqm, _, hrm, hpr, hrq⟩)
        · cases hv
      · cases hv
  surplus q hq := by
    have hle := hab.length_le ha hb
    have hle' := hbc.length_le hb hc
    rw [ha.positional, hc.positional, List.drop_eq_nil_of_le (by omega)] at hq
    cases hq
  rest r own hr _ := by
    rw [hc.rest] at hr
    cases hr
  result := .inr ⟨hap _ a.result_mem_parts, hcp _ c.result_mem_parts, _, hbp _ b.result_mem_parts,
    hab.result, hbc.result⟩

theorem SignaturesFit.trans {as bs cs : List (Signature Ty)} (ha : ∀ a ∈ as, a.Mandatory)
    (hb : ∀ b ∈ bs, b.Mandatory) (hc : ∀ c ∈ cs, c.Mandatory)
    (hap : ∀ a ∈ as, ∀ x ∈ a.parts, x.Strict) (hbp : ∀ b ∈ bs, ∀ x ∈ b.parts, x.Strict)
    (hcp : ∀ c ∈ cs, ∀ x ∈ c.parts, x.Strict)
    (hab : verbatim.SignaturesFit verbatim.Assignable as bs)
    (hbc : verbatim.SignaturesFit verbatim.Assignable bs cs) :
    verbatim.SignaturesFit Linked as cs := by
  intro c hcm
  obtain ⟨b, hbm, hbc⟩ := hbc c hcm
  obtain ⟨a, ham, hab⟩ := hab b hbm
  exact ⟨a, ham, hab.trans (ha a ham) (hb b hbm) (hc c hcm) (hap a ham) (hbp b hbm) (hcp c hcm) hbc⟩

theorem FieldFits.trans {fs gs : List (Field Ty)} {h : Field Ty}
    (hf : ∀ f ∈ fs, f.type.Strict ∧ f.optional = false)
    (hg : ∀ g ∈ gs, g.type.Strict) (hh : h.type.Strict) (ho : h.optional = false)
    (hfg : ∀ g ∈ gs, FieldFits verbatim.Assignable fs g)
    (hgh : FieldFits verbatim.Assignable gs h) : FieldFits Linked fs h := by
  unfold FieldFits at hgh
  cases hfind : Field.find? gs h.name with
  | none => simp [hfind, ho] at hgh
  | some g =>
    rw [hfind] at hgh
    obtain ⟨hgm, hgn⟩ := Field.find?_eq_some hfind
    have hg' := hfg g hgm
    unfold FieldFits at hg' ⊢
    rw [hgn] at hg'
    cases hfind' : Field.find? fs h.name with
    | none =>
      rw [hfind'] at hg'
      exact hgh.1 hg'
    | some f =>
      rw [hfind'] at hg'
      obtain ⟨hfs, hfo⟩ := hf f (Field.find?_eq_some hfind').1
      refine ⟨fun he => ?_, .inr ⟨hfs, hh, g.type, hg g hgm, hg'.2, hgh.2⟩⟩
      rw [hfo] at he
      cases he

/-- A source fits a target of a matching shape, part by part. -/
inductive Matches (R : Ty → Ty → Prop) : Ty → Ty → Prop
  | arrays {a b : Ty} (h : R a b) : Matches R (.array a) (.array b)
  | tupleToArray {as : List Ty} {b : Ty} (h : ∀ a ∈ as, R a b) : Matches R (.tuple as) (.array b)
  | tuples {as bs : List Ty} (h : List.Forall₂ R as bs) : Matches R (.tuple as) (.tuple bs)
  | objects {fs gs : List (Field Ty)} {own wanted : Option (Index Ty)} {n m : Option String}
    (hf : ∀ g ∈ gs, FieldFits R fs g) : Matches R (.object fs own n) (.object gs wanted m)
  | functions {ss us : List (Signature Ty)} {own wanted : Option Ty}
    (hs : verbatim.SignaturesFit R ss us) : Matches R (.func ss own) (.func us wanted)
  | constructors {ss us : List (Signature Ty)} (hs : verbatim.SignaturesFit R ss us) :
    Matches R (.ctor ss) (.ctor us)

/-- Strict types have neither indexes nor receivers that would have to fit. -/
theorem Matches.fits {R : Ty → Ty → Prop} (hs : s.Strict) (ht : t.Strict) (h : Matches R s t) :
    verbatim.FitsBy R s t := by
  cases h with
  | arrays h => exact .arrays h
  | tupleToArray h => exact .tupleToArray h
  | tuples h => exact .tuples h
  | objects hf =>
    refine .objects hf ?_
    rintro i rfl
    cases ht.exact.here.1
  | functions h =>
    refine .functions ?_ h
    rintro o w rfl
    cases hs.exact.here.1
  | constructors h => exact .constructors h

/-- From a matching target a further rule goes to an equal type, to a member of a union, or again
part by part. -/
theorem Matches.onward {R R' : Ty → Ty → Prop} (h : Matches R s t) (ha : u ≠ Ty.any)
    (htu : verbatim.FitsBy R' t u) :
    (t.same u ∨ ∃ ms, u = .union ms ∧ ∃ m ∈ ms, R' t m) ∨ Matches R' t u := by
  cases htu with
  | equal he => exact .inl (.inl he)
  | toAny => exact (ha rfl).elim
  | toUnion _ hm hr => exact .inl (.inr ⟨_, rfl, _, hm, hr⟩)
  | arrays hr => exact .inr (.arrays hr)
  | tupleToArray hr => exact .inr (.tupleToArray hr)
  | tuples hr => exact .inr (.tuples hr)
  | objects hf _ => exact .inr (.objects hf)
  | functions _ hr => exact .inr (.functions hr)
  | constructors hr => exact .inr (.constructors hr)
  | _ => cases h

theorem Matches.trans (hs : s.Strict) (ht : t.Strict) (hu : u.Strict)
    (hst : Matches verbatim.Assignable s t) (htu : Matches verbatim.Assignable t u) :
    Matches Linked s u := by
  have hl : ∀ {a b c : Ty}, a ∈ s.children → b ∈ t.children → c ∈ u.children →
      verbatim.Assignable a b → verbatim.Assignable b c → Linked a c :=
    fun ha hb hc hab hbc => .inr ⟨hs.child ha, hu.child hc, _, ht.child hb, hab, hbc⟩
  cases hst with
  | arrays hab =>
    cases htu with
    | arrays hbc =>
      exact .arrays (hl (Ty.element_mem_children _) (Ty.element_mem_children _)
        (Ty.element_mem_children _) hab hbc)
  | tupleToArray hab =>
    cases htu with
    | arrays hbc =>
      exact .tupleToArray fun a ha =>
        hl ha (Ty.element_mem_children _) (Ty.element_mem_children _) (hab a ha) hbc
  | @tuples as bs hab =>
    cases htu with
    | tupleToArray hbc =>
      refine .tupleToArray fun a ha => ?_
      obtain ⟨b, hb, hab⟩ := forall₂_mem_left hab ha
      exact hl ha hb (Ty.element_mem_children _) hab (hbc b hb)
    | @tuples _ cs hbc =>
      refine .tuples (List.forall₂_iff_get.mpr ⟨hab.length_eq.trans hbc.length_eq, ?_⟩)
      intro i hi hi'
      have hib : i < bs.length := hab.length_eq ▸ hi
      exact hl (List.get_mem as ⟨i, hi⟩) (List.get_mem bs ⟨i, hib⟩) (List.get_mem cs ⟨i, hi'⟩)
        (hab.get hi hib) (hbc.get hib hi')
  | objects hfg =>
    cases htu with
    | objects hge =>
      refine .objects fun e he => FieldFits.trans (fun f hf => ⟨?_, hs.exact.here.2 f hf⟩)
        (fun g hg => ht.child (Ty.field_mem_children hg)) (hu.child (Ty.field_mem_children he))
        (hu.exact.here.2 e he) hfg (hge e he)
      exact hs.child (Ty.field_mem_children hf)
  | functions hss =>
    cases htu with
    | functions hus =>
      exact .functions (hss.trans hs.exact.here.2 ht.exact.here.2 hu.exact.here.2
        (fun a ha x hx => hs.child (Ty.part_mem_children_func ha hx))
        (fun b hb x hx => ht.child (Ty.part_mem_children_func hb hx))
        (fun c hc x hx => hu.child (Ty.part_mem_children_func hc hx)) hus)
  | constructors hss =>
    cases htu with
    | constructors hus =>
      exact .constructors (hss.trans hs.exact.here ht.exact.here hu.exact.here
        (fun a ha x hx => hs.child (Ty.part_mem_children_ctor ha hx))
        (fun b hb x hx => ht.child (Ty.part_mem_children_ctor hb hx))
        (fun c hc x hx => hu.child (Ty.part_mem_children_ctor hc hx)) hus)

/-- A primitive that is neither an extreme nor `undefined` fits equal types and unions only. -/
theorem FitsBy.from_prim {R : Ty → Ty → Prop} {k : Prim}
    (hk : k ≠ .any ∧ k ≠ .never ∧ k ≠ .undefined) (ha : u ≠ Ty.any)
    (h : verbatim.FitsBy R (.prim k) u) :
    (Ty.prim k).same u ∨ ∃ ms, u = .union ms ∧ ∃ m ∈ ms, R (.prim k) m := by
  cases h with
  | equal he => exact .inl he
  | toAny => exact (ha rfl).elim
  | fromNever => exact (hk.2.1 rfl).elim
  | fromAny => exact (hk.1 rfl).elim
  | undefinedToVoid => exact (hk.2.2 rfl).elim
  | toUnion _ hm hr => exact .inr ⟨_, rfl, _, hm, hr⟩

/-- Two steps by rules are one. The induction is on the type in between, since a union there is
passed through one of its members. -/
theorem linked_fits (hs : s.Strict) (ht : t.Strict) (hu : u.Strict)
    (hst : verbatim.Assignable s t) (htu : verbatim.Assignable t u) :
    verbatim.FitsBy Linked s u := by
  induction t using Ty.child_induction with
  | step t ih =>
    have hresp := respects_assignable faithful_verbatim
    have hstf : verbatim.FitsBy verbatim.Assignable s t := assignable_iff.mp hst
    have htuf : verbatim.FitsBy verbatim.Assignable t u := assignable_iff.mp htu
    have hany : u ≠ Ty.any := by
      rintro rfl
      exact hu.exact.here rfl
    -- the second step does not look inside the type in between
    have houter : (∀ ns, s ≠ .union ns) →
        (t.same u ∨ ∃ ms, u = .union ms ∧ ∃ m ∈ ms, verbatim.Assignable t m) →
        verbatim.FitsBy Linked s u := by
      rintro hn (he | ⟨ms, rfl, m, hm, htm⟩)
      · refine linked_of_assignable (assignable_iff.mp ?_)
        exact hresp hs.interRefFree hs.interRefFree ht.interRefFree hu.interRefFree
          (Ty.same_refl s) he hst
      · exact .toUnion hn hm (.inr ⟨hs, hu.child hm, t, ht, hst, htm⟩)
    have hmatch : (∀ ns, s ≠ .union ns) → Matches verbatim.Assignable s t →
        verbatim.FitsBy Linked s u := by
      intro hn hst'
      rcases hst'.onward hany htuf with hout | htu'
      · exact houter hn hout
      · exact (hst'.trans hs ht hu htu').fits hs hu
    cases hstf with
    | equal he =>
      refine linked_of_assignable (assignable_iff.mp ?_)
      exact hresp ht.interRefFree hs.interRefFree hu.interRefFree hu.interRefFree
        (Ty.same_symm hs.proper he) (Ty.same_refl u)
        htu
    | toAny => exact (ht.exact.here rfl).elim
    | fromNever => exact .fromNever u
    | fromAny => exact (hs.exact.here rfl).elim
    | undefinedToVoid => exact houter (by simp) (htuf.from_prim (by simp) hany)
    | literalToPrim l =>
      exact houter (by simp) (htuf.from_prim (by cases l <;> simp [Literal.base]) hany)
    | fromUnion hn hm =>
      refine .fromUnion (fun he => hn (htuf.eq_never ht.proper he)) fun m hmem => ?_
      exact .inr ⟨hs.child hmem, hu, t, ht, hm m hmem, htu⟩
    | @toUnion _ m ms hn hmem hsm =>
      cases htuf with
      | equal he => exact houter hn (.inl he)
      | toAny => exact (hany rfl).elim
      | fromUnion _ hall => exact ih m hmem (ht.child hmem) hsm (hall m hmem)
      | toUnion hn _ _ => exact (hn ms rfl).elim
    | arrays hab => exact hmatch (by simp) (.arrays hab)
    | tupleToArray hab => exact hmatch (by simp) (.tupleToArray hab)
    | tuples hab => exact hmatch (by simp) (.tuples hab)
    | objects hfg _ => exact hmatch (by simp) (.objects hfg)
    | functions _ hss => exact hmatch (by simp) (.functions hss)
    | constructors hss => exact hmatch (by simp) (.constructors hss)

theorem Assignable.trans (hs : s.Strict) (ht : t.Strict) (hu : u.Strict)
    (hst : verbatim.Assignable s t) (htu : verbatim.Assignable t u) : verbatim.Assignable s u := by
  refine ⟨Linked, ?_, .inr ⟨hs, hu, t, ht, hst, htu⟩⟩
  rintro a c (hac | ⟨ha, hc, b, hb, hab, hbc⟩)
  · exact linked_of_assignable (assignable_iff.mp hac)
  · exact linked_fits ha hb hc hab hbc

end Reading

/-- Under contravariance, what fits a type that fits a third fits the third: the answers of one
checker, whatever it was asked before about types without intersections and references, and of a
fresh one to each question. -/
theorem check_transitive {σ : Type} {ctx : Surroundings σ} (hv : ctx.variance = .contravariant)
    (hlook : ∀ t : Ty, (∀ n, t ≠ .ref n) → ctx.unwrap t = pure t) (world : σ)
    {before : List Question} (hb : ∀ q ∈ before, q.source.InterRefFree ∧ q.target.InterRefFree)
    {s t u : Ty}
    (hs : s.Strict) (ht : t.Strict) (hu : u.Strict) :
    ∃ bound earlier a b c, (a = true → b = true → c = true) ∧ ∀ depth, bound ≤ depth →
      freshAnswers ctx depth world (before ++ [⟨s, t⟩, ⟨t, u⟩, ⟨s, u⟩]) =
        .ok (earlier ++ [a, b, c]) ∧
      freshAnswers ctx depth world [⟨s, t⟩] = .ok [a] ∧
      freshAnswers ctx depth world [⟨t, u⟩] = .ok [b] ∧
      freshAnswers ctx depth world [⟨s, u⟩] = .ok [c] := by
  classical
  have hends : ∀ qs : List Question, (∀ q ∈ qs, q.source.InterRefFree ∧ q.target.InterRefFree) →
      ∃ bound, ∀ depth, bound ≤ depth → freshAnswers ctx depth world qs =
        .ok (qs.map fun q => decide (Reading.verbatim.Assignable q.source q.target)) := by
    intro qs hqs
    obtain ⟨bound, st', hrun⟩ := (Reading.readsWithoutInter_verbatim hv hlook).answers_end
      ⟨Memo.empty, world⟩
      ⟨trivial, by simp [Memo.Sound, Memo.empty]⟩ rfl hqs
    exact ⟨bound, fun depth hd => by rw [freshAnswers, hrun depth hd]⟩
  obtain ⟨b₁, h₁⟩ := hends [⟨s, t⟩] (by simp [hs.interRefFree, ht.interRefFree])
  obtain ⟨b₂, h₂⟩ := hends [⟨t, u⟩] (by simp [ht.interRefFree, hu.interRefFree])
  obtain ⟨b₃, h₃⟩ := hends [⟨s, u⟩] (by simp [hs.interRefFree, hu.interRefFree])
  obtain ⟨b₄, h₄⟩ := hends (before ++ [⟨s, t⟩, ⟨t, u⟩, ⟨s, u⟩]) fun q hq => by
    rcases List.mem_append.mp hq with hq | hq
    · exact hb q hq
    · simp only [List.mem_cons, List.not_mem_nil, or_false] at hq
      rcases hq with rfl | rfl | rfl
      · exact ⟨hs.interRefFree, ht.interRefFree⟩
      · exact ⟨ht.interRefFree, hu.interRefFree⟩
      · exact ⟨hs.interRefFree, hu.interRefFree⟩
  rw [List.map_append] at h₄
  refine ⟨max (max b₁ b₂) (max b₃ b₄), _, _, _, _, ?_, fun depth hd =>
    ⟨h₄ depth (by omega), h₁ depth (by omega), h₂ depth (by omega), h₃ depth (by omega)⟩⟩
  simp only [decide_eq_true_eq]
  exact Reading.Assignable.trans hs ht hu

/-- From two overloads to one function and on to a union, with tuples, arrays and unions in their
signatures, after two other questions. -/
theorem check_transitive_overloads :
    let text : Ty := .prim .string
    let number : Ty := .prim .number
    let s : Ty := .func [⟨[], .tuple [.literal (.text "a")]⟩, ⟨[⟨"x", text, false, false⟩], text⟩]
      none
    let t : Ty := .func [⟨[⟨"y", .union [number, text], false, false⟩], .array text⟩] none
    let u : Ty := .union [.func [⟨[⟨"z", number, false, false⟩, ⟨"w", text, false, false⟩],
      .array (.union [number, text])⟩] none, Ty.void]
    s.Strict ∧ t.Strict ∧ u.Strict ∧
      ∃ bound earlier a b c, (a = true → b = true → c = true) ∧ ∀ depth, bound ≤ depth →
        freshAnswers (Env.surroundings .contravariant true) depth parity
          ([⟨u, s⟩, ⟨t, s⟩] ++ [⟨s, t⟩, ⟨t, u⟩, ⟨s, u⟩]) = .ok (earlier ++ [a, b, c]) ∧
        freshAnswers (Env.surroundings .contravariant true) depth parity [⟨s, t⟩] = .ok [a] ∧
        freshAnswers (Env.surroundings .contravariant true) depth parity [⟨t, u⟩] = .ok [b] ∧
        freshAnswers (Env.surroundings .contravariant true) depth parity [⟨s, u⟩] = .ok [c] := by
  intro text number s t u
  have hstrict : ∀ v ∈ [s, t, u], v.Strict := by
    have hw : ∀ v ∈ [s, t, u], Ty.holdsWithin Ty.WellShaped 6 v ∧ Ty.holdsWithin Ty.Exact 6 v := by
      decide
    exact fun v hv =>
      ⟨Ty.everywhere_of_holdsWithin (hw v hv).1, Ty.everywhere_of_holdsWithin (hw v hv).2⟩
  have hs := hstrict s (by simp)
  have ht := hstrict t (by simp)
  have hu := hstrict u (by simp)
  refine ⟨hs, ht, hu, check_transitive rfl (fun _ => Env.unwrap_eq_pure) parity ?_ hs ht hu⟩
  simp [hs.interRefFree, ht.interRefFree, hu.interRefFree]

end ShapeCheck
