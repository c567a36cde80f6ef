import ShapeCheck.Fit.Memo
import ShapeCheck.Proofs.Ty.Same
import ShapeCheck.Config

/-! Assignability as the greatest relation that is consistent with its rules, and the same
relation over a list of questions that are taken to hold. -/

namespace ShapeCheck

/-- What the rules depend on besides the two types: what a reference stands for, and how
parameters compare. -/
structure Reading where
  look : Ty → Ty
  variance : Variance

namespace Reading
variable (rd : Reading) (R : Ty → Ty → Prop)

/-- Callers of the target pass what the source accepts; under bivariance the converse will do. -/
def ParamFits (target source : Ty) : Prop :=
  R target source ∨ (rd.variance = .bivariant ∧ R source target)

/-- What a rest parameter takes one of. -/
def element (rest : Ty) : Ty :=
  match rd.look rest with
  | .array e => e
  | _ => Ty.any

/-- The type accepted at a position: that of the parameter there, or else an element of the rest
parameter. -/
def acceptedBy (rest : Option (Param Ty)) (own : List (Param Ty)) (i : Nat) : Option Ty :=
  match own[i]? with
  | some p => some p.type
  | none => rest.map fun r => rd.element r.type

def accepted (s : Signature Ty) (i : Nat) : Option Ty := rd.acceptedBy s.rest? s.positional i

/-- One signature stands for another: it accepts every argument, its surplus parameters are fed
by a rest parameter or optional, and its result fits. -/
structure SignatureFits (source target : Signature Ty) : Prop where
  provided : ∀ i p a, target.positional[i]? = some p → rd.accepted source i = some a →
    rd.ParamFits R p.type a
  surplus : ∀ q ∈ source.positional.drop target.positional.length,
    match target.rest? with
    | some r => rd.ParamFits R (rd.element r.type) q.type
    | none => q.optional = true
  rest : ∀ r own, target.rest? = some r → source.rest? = some own → rd.ParamFits R r.type own.type
  result : R source.result target.result

def SignaturesFit (sources targets : List (Signature Ty)) : Prop :=
  ∀ t ∈ targets, ∃ s ∈ sources, rd.SignatureFits R s t

/-- A property that an object wants is there, unless it is optional, and fits. -/
def FieldFits (fields : List (Field Ty)) (wanted : Field Ty) : Prop :=
  match Field.find? fields wanted.name with
  | none => wanted.optional = true
  | some found => (found.optional = true → wanted.optional = true) ∧ R found.type wanted.type

/-- Every property and the index of an object fit an index. -/
def IndexFits (fields : List (Field Ty)) (own wanted : Option (Index Ty)) : Prop :=
  ∀ i, wanted = some i →
    (∀ f ∈ fields, R f.type i.value) ∧ ∀ o, own = some o → R o.value i.value

/-- A source fits a target by one of the rules, if the relation holds of the parts that the rule
asks about. -/
inductive FitsBy : Ty → Ty → Prop
  | equal {s t : Ty} (h : s.same t) : FitsBy s t
  | toAny (s : Ty) : FitsBy s Ty.any
  | fromNever (t : Ty) : FitsBy Ty.never t
  | fromAny {t : Ty} (h : t ≠ Ty.never) : FitsBy Ty.any t
  | undefinedToVoid : FitsBy Ty.undefined Ty.void
  | literalToPrim (l : Literal) : FitsBy (.literal l) (.prim l.base)
  | fromUnion {ms : List Ty} {t : Ty} (h : t ≠ Ty.never) (hm : ∀ m ∈ ms, R m t) :
    FitsBy (.union ms) t
  | toUnion {s m : Ty} {ms : List Ty} (h : ∀ ns, s ≠ .union ns) (hm : m ∈ ms) (hr : R s m) :
    FitsBy s (.union ms)
  | arrays {a b : Ty} (h : R a b) : FitsBy (.array a) (.array b)
  | tupleToArray {as : List Ty} {b : Ty} (h : ∀ a ∈ as, R a b) : FitsBy (.tuple as) (.array b)
  | tuples {as bs : List Ty} (h : List.Forall₂ R as bs) : FitsBy (.tuple as) (.tuple bs)
  | objects {fs gs : List (Field Ty)} {own wanted : Option (Index Ty)} {n m : Option String}
    (hf : ∀ g ∈ gs, FieldFits R fs g) (hi : IndexFits R fs own wanted) :
    FitsBy (.object fs own n) (.object gs wanted m)
  | functions {ss us : List (Signature Ty)} {own wanted : Option Ty}
    (hr : ∀ o w, own = some o → wanted = some w → R w o) (hs : rd.SignaturesFit R ss us) :
    FitsBy (.func ss own) (.func us wanted)
  | constructors {ss us : List (Signature Ty)} (hs : rd.SignaturesFit R ss us) :
    FitsBy (.ctor ss) (.ctor us)

/-- Whatever the relation relates fits by some rule whose premises the relation meets. -/
def Consistent : Prop := ∀ s t, R s t → rd.FitsBy R (rd.look s) (rd.look t)

/-- The greatest consistent relation. -/
def Assignable (s t : Ty) : Prop := ∃ R, rd.Consistent R ∧ R s t

/-- One of the questions is about these two types. -/
def Assumed (qs : List Question) (s t : Ty) : Prop :=
  ∃ q ∈ qs, q.source.same s ∧ q.target.same t

/-- The greatest relation that is consistent but for the given questions. -/
def AssignableUnder (qs : List Question) (s t : Ty) : Prop :=
  ∃ R : Ty → Ty → Prop, R s t ∧
    ∀ a b, R a b → Assumed qs (rd.look a) (rd.look b) ∨ rd.FitsBy R (rd.look a) (rd.look b)

end Reading

namespace Signature
variable {s : Signature Ty} {p : Param Ty}

theorem mem_params_of_rest (h : s.rest? = some p) : p ∈ s.params := by
  unfold rest? at h
  split at h
  · rename_i q hq
    split at h
    · cases h
      exact List.mem_of_getLast? hq
    · cases h
  · cases h

theorem mem_params_of_positional (h : p ∈ s.positional) : p ∈ s.params := by
  unfold positional at h
  split at h
  · exact List.mem_of_mem_dropLast h
  · exact h

theorem type_mem_parts (h : p ∈ s.params) : p.type ∈ s.parts :=
  Ty.mem_parts.mpr (.inl ⟨p, h, rfl⟩)

theorem result_mem_parts (s : Signature Ty) : s.result ∈ s.parts :=
  Ty.mem_parts.mpr (.inr rfl)

end Signature

theorem Field.mem_of_find? {fs : List (Field Ty)} {f : Field Ty} {n : String}
    (h : Field.find? fs n = some f) : f ∈ fs := List.mem_of_find?_eq_some h

/-- A class of types that the rules do not lead out of. -/
structure Reading.Preserves (rd : Reading) (Adm : Ty → Prop) : Prop where
  any : Adm Ty.any
  child : ∀ {t u : Ty}, Adm t → u ∈ t.children → Adm u
  look : ∀ {t : Ty}, Adm t → Adm (rd.look t)

namespace Reading
variable {rd : Reading} {Adm : Ty → Prop} {R R' : Ty → Ty → Prop} {s t : Ty}

theorem Preserves.field (hr : rd.Preserves Adm) {fs : List (Field Ty)} {i : Option (Index Ty)}
    {n : Option String} (h : Adm (.object fs i n)) : ∀ f ∈ fs, Adm f.type :=
  fun _ hf => hr.child h (Ty.field_mem_children hf)

theorem Preserves.index (hr : rd.Preserves Adm) {fs : List (Field Ty)} {i : Option (Index Ty)}
    {n : Option String} (h : Adm (.object fs i n)) : ∀ j, i = some j → Adm j.value :=
  fun _ hj => hr.child h (Ty.value_mem_children hj)

theorem Preserves.receiver (hr : rd.Preserves Adm) {ss : List (Signature Ty)} {o : Option Ty}
    (h : Adm (.func ss o)) : ∀ r, o = some r → Adm r :=
  fun _ ho => hr.child h (Ty.receiver_mem_children ho)

theorem Preserves.signature (hr : rd.Preserves Adm) {ss : List (Signature Ty)} {o : Option Ty}
    (h : Adm (.func ss o)) : ∀ s ∈ ss, ∀ a ∈ s.parts, Adm a :=
  fun _ hs _ ha => hr.child h (Ty.part_mem_children_func hs ha)

theorem Preserves.newSignature (hr : rd.Preserves Adm) {ss : List (Signature Ty)}
    (h : Adm (.ctor ss)) :
    ∀ s ∈ ss, ∀ a ∈ s.parts, Adm a :=
  fun _ hs _ ha => hr.child h (Ty.part_mem_children_ctor hs ha)

theorem Preserves.element (hr : rd.Preserves Adm) {r : Ty} (h : Adm r) : Adm (rd.element r) := by
  unfold Reading.element
  split
  · rename_i e he
    have hl := hr.look h
    rw [he] at hl
    exact hr.child hl (Ty.element_mem_children _)
  · exact hr.any

theorem accepted_of_parts (Adm : Ty → Prop) (he : ∀ {r : Ty}, Adm r → Adm (rd.element r))
    {s : Signature Ty} (hs : ∀ u ∈ s.parts, Adm u) {i : Nat} {a : Ty}
    (h : rd.accepted s i = some a) : Adm a := by
  unfold Reading.accepted acceptedBy at h
  split at h
  · rename_i p hp
    cases h
    have hm := Signature.mem_params_of_positional (List.mem_of_getElem? hp)
    exact hs _ (Signature.type_mem_parts hm)
  · obtain ⟨r, hrest, rfl⟩ := Option.map_eq_some_iff.mp h
    exact he (hs _ (Signature.type_mem_parts (Signature.mem_params_of_rest hrest)))

theorem Preserves.accepted (hr : rd.Preserves Adm) {s : Signature Ty} (hs : ∀ u ∈ s.parts, Adm u)
    {i : Nat} {a : Ty} (h : rd.accepted s i = some a) : Adm a :=
  accepted_of_parts Adm hr.element hs h

theorem ParamFits.imp {a b : Ty} (h : R a b → R' a b) (h' : R b a → R' b a)
    (hp : rd.ParamFits R a b) : rd.ParamFits R' a b := by
  rcases hp with hp | ⟨hv, hp⟩
  · exact .inl (h hp)
  · exact .inr ⟨hv, h' hp⟩

section
variable (Adm) (he : ∀ {r : Ty}, Adm r → Adm (rd.element r))
  (h : ∀ a b, Adm a → Adm b → R a b → R' a b)
include he h

theorem SignatureFits.imp {s u : Signature Ty} (hs : ∀ a ∈ s.parts, Adm a)
    (hu : ∀ a ∈ u.parts, Adm a) (hf : rd.SignatureFits R s u) : rd.SignatureFits R' s u where
  provided i p a hp ha := by
    have hpa := hu _ (Signature.type_mem_parts
      (Signature.mem_params_of_positional (List.mem_of_getElem? hp)))
    have haa := accepted_of_parts Adm he hs ha
    exact (hf.provided i p a hp ha).imp (h _ _ hpa haa) (h _ _ haa hpa)
  surplus q hq := by
    have hqa := hs _ (Signature.type_mem_parts
      (Signature.mem_params_of_positional (List.mem_of_mem_drop hq)))
    have := hf.surplus q hq
    split at this
    · rename_i r hrest
      have hra := he (hu _ (Signature.type_mem_parts (Signature.mem_params_of_rest hrest)))
      exact this.imp (h _ _ hra hqa) (h _ _ hqa hra)
    · exact this
  rest r own hrest hown := by
    have hra := hu _ (Signature.type_mem_parts (Signature.mem_params_of_rest hrest))
    have hoa := hs _ (Signature.type_mem_parts (Signature.mem_params_of_rest hown))
    exact (hf.rest r own hrest hown).imp (h _ _ hra hoa) (h _ _ hoa hra)
  result := h _ _ (hs _ s.result_mem_parts) (hu _ u.result_mem_parts) hf.result

theorem SignaturesFit.imp {ss us : List (Signature Ty)} (hs : ∀ s ∈ ss, ∀ a ∈ s.parts, Adm a)
    (hu : ∀ u ∈ us, ∀ a ∈ u.parts, Adm a) (hf : rd.SignaturesFit R ss us) :
    rd.SignaturesFit R' ss us := by
  intro u hum
  obtain ⟨s, hsm, hsu⟩ := hf u hum
  exact ⟨s, hsm, hsu.imp Adm he h (hs s hsm) (hu u hum)⟩

end

theorem FieldFits.imp {fs : List (Field Ty)} {g : Field Ty}
    (h : ∀ f ∈ fs, R f.type g.type → R' f.type g.type) (hf : FieldFits R fs g) :
    FieldFits R' fs g := by
  unfold FieldFits at hf ⊢
  split
  · rename_i hfind
    simpa only [hfind] using hf
  · rename_i f hfind
    simp only [hfind] at hf
    exact ⟨hf.1, h f (Field.mem_of_find? hfind) hf.2⟩

/-- Neither a union nor an intersection. -/
def Single (t : Ty) : Prop := (∀ ms, t ≠ .union ms) ∧ ∀ ms, t ≠ .inter ms

/-- The premises of a rule are about parts of the types, or about a member of a union and the other
type, so it is enough to weaken the relation there. -/
theorem FitsBy.imp_of_parts (Adm : Ty → Prop) (he : ∀ {r : Ty}, Adm r → Adm (rd.element r))
    (hs : Single s → ∀ u ∈ s.children, Adm u) (ht : Single t → ∀ u ∈ t.children, Adm u)
    (h : ∀ a b, Adm a → Adm b → R a b → R' a b)
    (hleft : ∀ ms, s = .union ms → ∀ m ∈ ms, R m t → R' m t)
    (hright : ∀ ms, t = .union ms → ∀ m ∈ ms, R s m → R' s m) (hf : rd.FitsBy R s t) :
    rd.FitsBy R' s t := by
  cases hf with
  | equal he => exact .equal he
  | toAny => exact .toAny s
  | fromNever => exact .fromNever t
  | fromAny hn => exact .fromAny hn
  | undefinedToVoid => exact .undefinedToVoid
  | literalToPrim l => exact .literalToPrim l
  | fromUnion hn hm => exact .fromUnion hn fun m hmem => hleft _ rfl m hmem (hm m hmem)
  | toUnion hn hm hrel => exact .toUnion hn hm (hright _ rfl _ hm hrel)
  | arrays hab =>
    exact .arrays (h _ _ (hs (by simp [Single]) _ (Ty.element_mem_children _))
      (ht (by simp [Single]) _ (Ty.element_mem_children _)) hab)
  | tupleToArray hab =>
    exact .tupleToArray fun a ha => h a _ (hs (by simp [Single]) a ha)
      (ht (by simp [Single]) _ (Ty.element_mem_children _)) (hab a ha)
  | @tuples as bs hab =>
    refine .tuples (List.forall₂_iff_zip.mpr ⟨hab.length_eq, fun {a b} hz => ?_⟩)
    have hz' := List.of_mem_zip hz
    exact h a b (hs (by simp [Single]) a hz'.1) (ht (by simp [Single]) b hz'.2)
      ((List.forall₂_iff_zip.mp hab).2 hz)
  | objects hf hi =>
    have hs := hs (by simp [Single])
    have ht := ht (by simp [Single])
    refine .objects (fun g hg => ?_) fun i hw => ⟨fun f hm => ?_, fun o ho => ?_⟩
    · exact (hf g hg).imp fun f hm =>
        h _ _ (hs _ (Ty.field_mem_children hm)) (ht _ (Ty.field_mem_children hg))
    · exact h _ _ (hs _ (Ty.field_mem_children hm)) (ht _ (Ty.value_mem_children hw))
        ((hi i hw).1 f hm)
    · exact h _ _ (hs _ (Ty.value_mem_children ho)) (ht _ (Ty.value_mem_children hw))
        ((hi i hw).2 o ho)
  | functions hrec hsig =>
    have hs := hs (by simp [Single])
    have ht := ht (by simp [Single])
    refine .functions (fun o w ho hw => ?_) (hsig.imp Adm he h
      (fun _ hm _ ha => hs _ (Ty.part_mem_children_func hm ha))
      fun _ hm _ ha => ht _ (Ty.part_mem_children_func hm ha))
    exact h _ _ (ht _ (Ty.receiver_mem_children hw)) (hs _ (Ty.receiver_mem_children ho))
      (hrec o w ho hw)
  | constructors hsig =>
    exact .constructors (hsig.imp Adm he h
      (fun _ hm _ ha => hs (by simp [Single]) _ (Ty.part_mem_children_ctor hm ha))
      fun _ hm _ ha => ht (by simp [Single]) _ (Ty.part_mem_children_ctor hm ha))

/-- The premises of a rule are about admissible types. -/
theorem FitsBy.imp (hr : rd.Preserves Adm) (hs : Adm s) (ht : Adm t)
    (h : ∀ a b, Adm a → Adm b → R a b → R' a b) (hf : rd.FitsBy R s t) : rd.FitsBy R' s t := by
  refine hf.imp_of_parts Adm hr.element (fun _ _ => hr.child hs) (fun _ _ => hr.child ht) h ?_ ?_
  · rintro ms rfl m hm
    exact h m t (hr.child hs hm) ht
  · rintro ms rfl m hm
    exact h s m hs (hr.child ht hm)

theorem preserves_true (rd : Reading) : rd.Preserves fun _ => True :=
  ⟨trivial, fun _ _ => trivial, fun _ => trivial⟩

theorem FitsBy.mono (h : ∀ a b, R a b → R' a b) (hf : rd.FitsBy R s t) : rd.FitsBy R' s t :=
  hf.imp rd.preserves_true trivial trivial fun a b _ _ => h a b

end Reading
end ShapeCheck
