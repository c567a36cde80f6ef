import ShapeCheck.Proofs.Env.Recipe
import ShapeCheck.Proofs.Fit.Closed
import ShapeCheck.Proofs.Tree.Parts
import ShapeCheck.Proofs.Ty.Params
import ShapeCheck.Tree.Build

/-! The recipes of type expressions are safe: whatever is wrong with a type expression is reported,
and what is built in the end is a type as it should be. -/

namespace ShapeCheck

/-- Fields that an object can have. -/
structure Field.Within (φ : Features) (fs : List (Field Ty)) : Prop where
  apart : Field.Apart fs
  type : ∀ f ∈ fs, Ty.Within φ f.type

theorem Field.within_nil {φ : Features} : Field.Within φ [] := ⟨List.nodup_nil, by simp⟩

theorem Field.Within.put {φ : Features} {fs : List (Field Ty)} {f : Field Ty}
    (h : Field.Within φ fs) (hf : Ty.Within φ f.type) : Field.Within φ (Field.put f fs) := by
  refine ⟨h.apart.put, fun g hg => ?_⟩
  rcases Field.mem_put hg with rfl | hm
  · exact hf
  · exact h.type g hm

/-- An index that an object can have, if there is one. -/
def Index.Within (φ : Features) (i : Option (Index Ty)) : Prop :=
  ∀ j, i = some j → φ.index ∧ Ty.Within φ j.value

namespace Build
variable {φ : Features} {α : Type} {fs : List (Field Ty)} {i : Option (Index Ty)}

theorem safe_guarded (span : Option Span) (r : Except Defect α) :
    (guarded span r).Safe φ fun o => ∀ a, o = some a → r = .ok a := by
  cases r with
  | ok a => exact Recipe.safe_pure fun _ h => congrArg Except.ok (Option.some.inj h)
  | error d => exact (Recipe.safe_say rfl).bind fun _ _ => Recipe.safe_pure fun _ h => by cases h

theorem safe_settleIndex (name : Option String) (span : Option Span) (hf : Field.Within φ fs)
    (hi : Index.Within φ i) : (settleIndex fs name span i).Safe φ (Index.Within φ) := by
  cases i with
  | none => exact Recipe.safe_pure hi
  | some index =>
    have hindex : ∀ j, some index = some j → Ty.Everywhere Ty.Orderly j.value := fun j hj =>
      (hi j hj).2.orderly
    have hout := Ty.objectOf_outcome name hf.apart (fun f hm => (hf.type f hm).orderly) hindex
    rcases hout with hok | ⟨_, he, ⟨_, _, _, rfl⟩, _⟩
    · simp only [settleIndex, hok]
      split
      · have hduty : (Obligation.index fs index name span).Within φ := ⟨hf.type, (hi index rfl).2⟩
        exact (Recipe.safe_later hduty).bind fun _ _ => Recipe.safe_pure hi
      · exact Recipe.safe_pure hi
    · simp only [settleIndex, he]
      exact (Recipe.safe_say rfl).bind fun _ _ => Recipe.safe_pure fun _ h => by cases h

/-- A type that was built, from names that were resolved at once if asked for. -/
structure Made (φ : Features) (eager : Bool) (t : Ty) : Prop where
  within : Ty.Within φ t
  grounded : eager = true → t.Grounded

theorem Made.firm {t : Ty} (h : Made φ true t) : Ty.Firm φ t := ⟨h.within, h.grounded rfl⟩

theorem made_of_firm {eager : Bool} {t : Ty} (h : Ty.Firm φ t) : Made φ eager t :=
  ⟨h.within, fun _ => h.grounded⟩

theorem made_of_within {eager : Bool} {t : Ty} (h : Ty.Within φ t) (hd : t.isDirect) :
    Made φ eager t :=
  ⟨h, fun _ => Ty.grounded_of_isDirect hd⟩

theorem safe_prim {eager : Bool} (k : Prim) :
    (pure (.prim k) : Recipe Ty).Safe φ (Made φ eager) :=
  Recipe.safe_pure (made_of_firm (Ty.firm_prim k))

theorem within_keyed {v : Ty} (hi : φ.index) (hv : Ty.Within φ v) (key : Option Key) :
    Index.Within φ (key.map (⟨·, v⟩)) := by
  intro j hj
  obtain ⟨k, _, rfl⟩ := Option.map_eq_some_iff.mp hj
  exact ⟨hi, hv⟩

theorem safe_reference (eager : Bool) (name : String) (span : Option Span) :
    (reference eager name span).Safe φ (Made φ eager) := by
  cases eager with
  | true => exact (Recipe.safe_named name span).imp fun _ => made_of_firm
  | false =>
    refine (Recipe.safe_knows name).bind fun known hk => ?_
    cases known with
    | true => exact Recipe.safe_pure ⟨Ty.within_ref (hk rfl), by simp⟩
    | false => exact (Recipe.safe_named name span).imp fun _ => made_of_firm

/-- A signature whose parameters are in order and whose parts are as they should be. -/
structure SignatureWithin (φ : Features) (s : Signature Ty) : Prop where
  params : Signature.checkParams false s.params = .ok ()
  type : ∀ u ∈ s.parts, Ty.Within φ u

/-- Signatures that are as they should be, unless they were given up. -/
def Signed (φ : Features) (r : Option (List (Signature Ty))) : Prop :=
  ∀ ss, r = some ss → ∀ s ∈ ss, SignatureWithin φ s

theorem signed_none : Signed φ none := fun _ h => by cases h

theorem signed_cons {r : Option (List (Signature Ty))} {s : Signature Ty}
    (hs : SignatureWithin φ s) (h : Signed φ r) : Signed φ (r.map (s :: ·)) := by
  intro ss he
  obtain ⟨rest, hr, rfl⟩ := Option.map_eq_some_iff.mp he
  exact List.forall_mem_cons.mpr ⟨hs, h rest hr⟩

theorem safe_needSignature {r : Option (List (Signature Ty))} (h : Signed φ r) :
    (needSignature r).Safe φ fun r => Signed φ r ∧ ∀ ss, r = some ss → ss ≠ [] := by
  cases r with
  | none => exact Recipe.safe_pure ⟨h, by simp⟩
  | some ss =>
    cases ss with
    | nil => exact (Recipe.safe_say rfl).bind fun _ _ => Recipe.safe_pure ⟨signed_none, by simp⟩
    | cons s ss =>
      refine Recipe.safe_pure ⟨h, fun _ he => ?_⟩
      cases he
      simp

mutual
theorem safe_type (eager : Bool) (name : Option String) (e : TypeExpr)
    (h : ∀ u ∈ e.parts, φ.Covers u) : (type eager name e).Safe φ (Made φ eager) := by
  cases e with
  | named n span => exact safe_reference eager n span
  | prim k => exact safe_prim k
  | literal v span =>
    refine (safe_guarded span (Literal.ofValue v)).bind fun l _ => ?_
    cases l with
    | none => exact safe_prim _
    | some l =>
      exact Recipe.safe_pure (made_of_within (Ty.within_literal l) rfl)
  | array e =>
    simp only [TypeExpr.parts, List.forall_mem_cons] at h
    refine (safe_type eager none e h.2).bind fun t ht => Recipe.safe_pure ?_
    exact ⟨Ty.within_array ht.within, fun he => Ty.grounded_array (ht.grounded he)⟩
  | tuple es =>
    simp only [TypeExpr.parts, List.forall_mem_cons] at h
    refine (safe_types eager es h.2).bind fun ts hts => Recipe.safe_pure ?_
    exact ⟨Ty.within_tuple fun t ht => (hts t ht).within,
      fun he => Ty.grounded_tuple fun t ht => (hts t ht).grounded he⟩
  | union ms =>
    simp only [TypeExpr.parts, List.forall_mem_cons] at h
    refine (safe_types eager ms h.2).bind fun ts hts => Recipe.safe_pure ?_
    exact ⟨Ty.within_join fun t ht => (hts t ht).within,
      fun he => Ty.grounded_join fun t ht => (hts t ht).grounded he⟩
  | inter ms =>
    simp only [TypeExpr.parts, List.forall_mem_cons] at h
    refine (safe_types eager ms h.2).bind fun ts hts => Recipe.safe_pure ?_
    exact ⟨Ty.within_meet (h.1.inter rfl) fun t ht => (hts t ht).within,
      fun he => Ty.grounded_meet fun t ht => (hts t ht).grounded he⟩
  | object ps index span =>
    cases index with
    | none =>
      simp only [TypeExpr.parts, List.forall_mem_cons] at h
      refine (safe_fields span [] ps h.2 Field.within_nil).bind fun fs hf =>
        Recipe.safe_pure ?_
      exact made_of_within (Ty.within_object hf.apart hf.type (by simp)) rfl
    | some i =>
      obtain ⟨key, value, place⟩ := i
      simp only [TypeExpr.parts, List.forall_mem_cons, List.forall_mem_append] at h
      refine (safe_fields span [] ps h.2.1 Field.within_nil).bind fun fs hf => ?_
      refine (safe_type false none value h.2.2).bind fun v hv => ?_
      refine (safe_guarded (place <|> span) (Key.ofPrim key)).bind fun k _ => ?_
      have hindex := within_keyed (h.1.index rfl) hv.within k
      refine (safe_settleIndex name span hf hindex).bind fun i hi => Recipe.safe_pure ?_
      exact made_of_within (Ty.within_object hf.apart hf.type hi) rfl
  | func ss receiver =>
    cases receiver with
    | none =>
      simp only [TypeExpr.parts, List.forall_mem_cons] at h
      refine (safe_signatures ss h.2).bind fun r hr => (safe_needSignature hr).bind fun r hr => ?_
      cases r with
      | none => exact safe_prim _
      | some built =>
        have hs := hr.1 built rfl
        have ht := Ty.within_func (r := none) ⟨hr.2 built rfl, fun s hm => (hs s hm).params⟩
          (fun s hm => (hs s hm).type) (by simp)
        exact Recipe.safe_pure (made_of_within ht rfl)
    | some receiver =>
      simp only [TypeExpr.parts, List.forall_mem_cons, List.forall_mem_append] at h
      refine (safe_signatures ss h.2.1).bind fun r hr =>
        (safe_needSignature hr).bind fun r hr => ?_
      cases r with
      | none => exact safe_prim _
      | some built =>
        have hs := hr.1 built rfl
        refine (safe_type false none receiver h.2.2).bind fun t ht => Recipe.safe_pure ?_
        refine made_of_within (Ty.within_func ⟨hr.2 built rfl, fun s hm => (hs s hm).params⟩
          (fun s hm => (hs s hm).type) fun u hu => ?_) rfl
        exact Option.some.inj hu ▸ ht.within
  | ctor ss =>
    simp only [TypeExpr.parts, List.forall_mem_cons] at h
    refine (safe_signatures ss h.2).bind fun r hr => (safe_needSignature hr).bind fun r hr => ?_
    cases r with
    | none => exact safe_prim _
    | some built =>
      have hs := hr.1 built rfl
      have ht := Ty.within_ctor ⟨hr.2 built rfl, fun s hm => (hs s hm).params⟩
        fun s hm => (hs s hm).type
      exact Recipe.safe_pure (made_of_within ht rfl)
  | misplaced node => exact .inl ⟨(h _ (List.mem_singleton_self _)).malformed rfl, by simp⟩

theorem safe_types (eager : Bool) (es : List TypeExpr)
    (h : ∀ u ∈ TypeExpr.partsOfAll es, φ.Covers u) :
    (types eager es).Safe φ fun ts => ∀ t ∈ ts, Made φ eager t := by
  cases es with
  | nil => exact Recipe.safe_pure (by simp)
  | cons e es =>
    simp only [TypeExpr.partsOfAll, List.forall_mem_append] at h
    refine (safe_type eager none e h.1).bind fun t ht => ?_
    refine (safe_types eager es h.2).bind fun ts hts => Recipe.safe_pure ?_
    exact List.forall_mem_cons.mpr ⟨ht, hts⟩

theorem safe_fields (span : Option Span) (own : List String) {collected : List (Field Ty)}
    (ps : List (PropertySig TypeExpr)) (h : ∀ u ∈ TypeExpr.partsOfProperties ps, φ.Covers u)
    (hc : Field.Within φ collected) : (fields span own collected ps).Safe φ (Field.Within φ) := by
  cases ps with
  | nil => exact Recipe.safe_pure hc
  | cons p ps =>
    obtain ⟨n, e, optional, place⟩ := p
    simp only [TypeExpr.partsOfProperties, List.forall_mem_append] at h
    simp only [fields]
    split
    · exact (Recipe.safe_say rfl).bind fun _ _ => safe_fields span own ps h.2 hc
    · exact (safe_type false none e h.1).bind fun t ht =>
        safe_fields span (n :: own) ps h.2 (hc.put ht.within)

theorem safe_params (ps : List (ParamExpr TypeExpr))
    (h : ∀ u ∈ TypeExpr.partsOfParams ps, φ.Covers u) :
    (params ps).Safe φ fun ps => ∀ p ∈ ps, Ty.Within φ p.type := by
  cases ps with
  | nil => exact Recipe.safe_pure (by simp)
  | cons p ps =>
    obtain ⟨n, e, optional, rest⟩ := p
    simp only [TypeExpr.partsOfParams, List.forall_mem_append] at h
    refine (safe_type false none e h.1).bind fun t ht => ?_
    refine (safe_params ps h.2).bind fun built hb => Recipe.safe_pure ?_
    exact List.forall_mem_cons.mpr ⟨ht.within, hb⟩

theorem safe_signatures (ss : List (SignatureExpr TypeExpr))
    (h : ∀ u ∈ TypeExpr.partsOfSignatures ss, φ.Covers u) :
    (signatures ss).Safe φ (Signed φ) := by
  cases ss with
  | nil => exact Recipe.safe_pure fun _ he => by cases he; simp
  | cons s ss =>
    obtain ⟨ps, r, span⟩ := s
    simp only [TypeExpr.partsOfSignatures, List.forall_mem_append] at h
    refine (safe_params ps h.1.1).bind fun built hb => ?_
    refine (safe_type false none r h.1.2).bind fun result hr => ?_
    refine (safe_guarded span (Signature.ofParts built result)).bind fun o ho => ?_
    cases o with
    | none => exact Recipe.safe_pure signed_none
    | some s =>
      refine (safe_signatures ss h.2).bind fun later hl =>
        Recipe.safe_pure (signed_cons ?_ hl)
      obtain ⟨hparams, rfl⟩ := Signature.ofParts_eq_ok_iff.mp (ho s rfl)
      refine ⟨hparams, fun u hu => ?_⟩
      rcases Ty.mem_parts.mp hu with ⟨p, hp, rfl⟩ | rfl
      · exact hb p hp
      · exact hr.within
end

/-- What can be inherited. -/
structure Inherited.Within (φ : Features) (acc : Inherited) : Prop where
  fields : Field.Within φ acc.fields
  index : Index.Within φ acc.index

theorem within_addFields {gs : List (Field Ty)} (h : Field.Within φ fs)
    (hg : ∀ g ∈ gs, Ty.Within φ g.type) : Field.Within φ (gs.foldl Inherited.addField fs) := by
  induction gs generalizing fs with
  | nil => exact h
  | cons g gs ih =>
    obtain ⟨hg, hgs⟩ := List.forall_mem_cons.mp hg
    refine ih ?_ hgs
    unfold Inherited.addField
    split
    · exact h
    · rename_i hnew
      refine ⟨h.apart.snoc ?_, ?_⟩
      · simpa using hnew
      · simpa [or_imp, forall_and] using ⟨h.type, hg⟩

theorem Inherited.Within.add {acc : Inherited} {name : Option String} (h : acc.Within φ)
    (ho : Ty.Within φ (.object fs i name)) : (acc.add fs i).Within φ := by
  refine ⟨within_addFields h.fields ho.field, fun j hj => ?_⟩
  cases hacc : acc.index with
  | none => exact ho.index j (by simpa [Inherited.add, hacc] using hj)
  | some k => exact h.index j (by simpa [Inherited.add, hacc] using hj)

theorem safe_inherit {acc : Inherited} (bases : List (String × Option Span)) (h : acc.Within φ) :
    (inherit acc bases).Safe φ (Inherited.Within φ) := by
  induction bases generalizing acc with
  | nil => exact Recipe.safe_pure h
  | cons base bases ih =>
    obtain ⟨name, span⟩ := base
    refine (Recipe.safe_named name span).bind fun t ht => ?_
    refine (Recipe.safe_unwrapped ht.within).bind fun t ht => ?_
    split
    · exact ih h
    · exact ih h
    · exact ih (h.add ht)
    · exact (Recipe.safe_say rfl).bind fun _ _ => ih h

theorem safe_ownIndex (span : Option Span) {declared : Option (IndexSig TypeExpr)}
    (hd : declared.isSome → φ.index)
    (h : ∀ s, declared = some s → ∀ u ∈ s.value.parts, φ.Covers u) :
    (ownIndex span declared).Safe φ (Index.Within φ) := by
  cases declared with
  | none => exact Recipe.safe_pure fun _ h => by cases h
  | some s =>
    refine (safe_type false none s.value (h s rfl)).bind fun v hv => ?_
    exact (safe_guarded (s.span <|> span) (Key.ofPrim s.key)).bind fun k _ =>
      Recipe.safe_pure (within_keyed (hd rfl) hv.within k)

theorem safe_ofAlias (name : String) (body : TypeExpr) (h : ∀ u ∈ body.parts, φ.Covers u) :
    (ofAlias name body).Safe φ (Ty.Firm φ) :=
  (safe_type true (some name) body h).imp fun _ ht => ht.firm

/-- A function is no reference, wherever it is declared. -/
theorem safe_ofFunc {ss : List (SignatureExpr TypeExpr)} {receiver : Option TypeExpr}
    (h : ∀ u ∈ (TypeExpr.func ss receiver).parts, φ.Covers u) :
    (ofFunc ss receiver).Safe φ (Ty.Firm φ) := by
  have hsame : ofFunc ss receiver = type true none (.func ss receiver) := by
    cases receiver <;> rfl
  rw [hsame]
  exact (safe_type true none _ h).imp fun _ ht => ht.firm

theorem safe_ofInterface (name : String) (properties : List (PropertySig TypeExpr))
    (declared : Option (IndexSig TypeExpr)) (bases : List (String × Option Span))
    (span : Option Span) (hp : ∀ u ∈ TypeExpr.partsOfProperties properties, φ.Covers u)
    (hd : declared.isSome → φ.index)
    (h : ∀ s, declared = some s → ∀ u ∈ s.value.parts, φ.Covers u) :
    (ofInterface name properties declared bases span).Safe φ (Ty.Firm φ) := by
  have hstart : (⟨[], none⟩ : Inherited).Within φ := ⟨Field.within_nil, fun _ h => by cases h⟩
  refine (safe_inherit bases hstart).bind fun acc hacc => ?_
  refine (safe_fields span [] properties hp hacc.fields).bind fun fs hf => ?_
  refine (safe_ownIndex span hd h).bind fun own hown => ?_
  have hwanted : Index.Within φ (if declared.isNone then acc.index else own) := by
    split
    · exact hacc.index
    · exact hown
  refine (safe_settleIndex (some name) span hf hwanted).bind fun kept hkept => ?_
  refine (Recipe.safe_later ?_).bind fun _ _ => Recipe.safe_pure ?_
  · exact ⟨hf.type, hacc.fields.type⟩
  · exact ⟨Ty.within_object hf.apart hf.type hkept, Ty.grounded_of_isDirect rfl⟩

end Build
end ShapeCheck
