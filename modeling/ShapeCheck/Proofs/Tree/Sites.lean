import ShapeCheck.Pass.Run
import ShapeCheck.Proofs.Fit.InterRefFree
import ShapeCheck.Proofs.Tree.Build

/-! The objects with an index that the recipes of type expressions build, and the problems with
these indexes. Fields that can be checked when the object is built are checked then, and the rest
is left for later, so that a problem comes up exactly if some field does not fit. -/

namespace ShapeCheck
variable {φ : Features} {N : Naming} {R : Reading} {α β : Type}

open Classical in
/-- The fields whose check had to wait and that do not fit. -/
noncomputable def Pass.misfits (R : Reading) (value : Ty) (fs : List (Field Ty)) :
    List (Field Ty) :=
  fs.filter fun f => (f.type.defers || value.defers) && !decide (R.Assignable f.type value)

/-- The problems with an index that are found when its check is made up for. -/
noncomputable def Obligation.late (R : Reading) : Obligation → List Diagnostic
  | .index fs i _ span => (Pass.misfits R i.value fs).map (Pass.indexViolation i.value span)
  | .refinement _ _ _ _ => []

/-- The problems with indexes that come of what a recipe leaves behind. -/
noncomputable def Deed.violations (R : Reading) : Deed → List Diagnostic
  | .say d => if d.kind = .indexSignatureViolation then [d] else []
  | .owe duty => duty.late R

/-- An object that is built with an index. -/
structure Site where
  fields : List (Field Ty)
  index : Index Ty
  name : Option String
  span : Option Span

namespace Site

/-- The problems with the index: what is found when the object is built, or else when its check is
made up for. -/
noncomputable def reports (R : Reading) (o : Site) : List Diagnostic :=
  match Ty.objectOf o.fields (some o.index) o.name with
  | .error (.defect d) => [Build.indexViolation d o.index o.span]
  | _ => (Pass.misfits R o.index.value o.fields).map (Pass.indexViolation o.index.value o.span)

structure Within (φ : Features) (o : Site) : Prop where
  fields : Field.Within φ o.fields
  value : Ty.Within φ o.index.value

variable {o : Site}

/-- A problem comes up exactly if a field does not fit the index. -/
theorem reports_ne_nil_iff (hni : ¬φ.inter) (ho : o.Within φ)
    (hl : ∀ t : Ty, (∀ n, t ≠ .ref n) → R.look t = t) :
    o.reports R ≠ [] ↔ ∃ f ∈ o.fields, ¬R.Assignable f.type o.index.value := by
  rcases Ty.objectOf_index o.name hni ho.fields.apart ho.fields.type ho.value hl with
    ⟨hok, hall⟩ | ⟨g, hg, herror, hmisfit⟩
  · simp only [reports, hok, ne_eq, List.map_eq_nil_iff, Pass.misfits, List.filter_eq_nil_iff,
      not_forall]
    constructor
    · rintro ⟨f, hf, hmisfit⟩
      refine ⟨f, hf, fun hfits => hmisfit ?_⟩
      simp [hfits]
    · rintro ⟨f, hf, hmisfit⟩
      refine ⟨f, hf, ?_⟩
      -- If neither type had to wait, the object would have been refused.
      have hdefers : (f.type.defers || o.index.value.defers) = true := by
        by_contra hnone
        simp only [Bool.or_eq_true, not_or, Bool.not_eq_true] at hnone
        exact hmisfit (hall hnone.2 f hf hnone.1)
      simp [hdefers, hmisfit]
  · simp only [reports, herror, ne_eq, List.cons_ne_self, not_false_eq_true, true_iff]
    exact ⟨g, hg, hmisfit⟩

/-- The problem that a field of the object brings up: the object is refused for it when it is
built, or its check had to wait. -/
def ReportOf (o : Site) (f : Field Ty) (d : Diagnostic) : Prop :=
  Ty.objectOf o.fields (some o.index) o.name =
      .error (.defect (.indexMisfit f.name f.type o.index.value)) ∧
    d = Build.indexViolation (.indexMisfit f.name f.type o.index.value) o.index o.span ∨
  (f.type.defers ∨ o.index.value.defers) ∧ d = Pass.indexViolation o.index.value o.span f

/-- Every problem is that of a field which does not fit the index. -/
theorem reportOf_of_mem_reports (hni : ¬φ.inter) (ho : o.Within φ)
    (hl : ∀ t : Ty, (∀ n, t ≠ .ref n) → R.look t = t) {d : Diagnostic} (h : d ∈ o.reports R) :
    ∃ f ∈ o.fields, o.ReportOf f d ∧ ¬R.Assignable f.type o.index.value := by
  rcases Ty.objectOf_index o.name hni ho.fields.apart ho.fields.type ho.value hl with
    ⟨hok, -⟩ | ⟨f, hf, herror, hmisfit⟩
  · simp only [reports, hok] at h
    obtain ⟨f, hf, rfl⟩ := List.mem_map.mp h
    obtain ⟨hf, hwaits⟩ := List.mem_filter.mp hf
    simp only [Bool.and_eq_true, Bool.or_eq_true, Bool.not_eq_true', decide_eq_false_iff_not]
      at hwaits
    exact ⟨f, hf, .inr ⟨hwaits.1, rfl⟩, hwaits.2⟩
  · simp only [reports, herror, List.mem_singleton] at h
    exact ⟨f, hf, .inl ⟨herror, h⟩, hmisfit⟩

end Site

/-- What a recipe results in when the names are bound already, if it does. -/
def Recipe.gives (N : Naming) (r : Recipe α) : Option α := (r.under N).result.toOption

namespace Build

/-- The signature of a callable, if it is formed well. -/
def signature? (N : Naming) (ps : List (ParamExpr TypeExpr)) (result : TypeExpr) :
    Option (Signature Ty) := do
  let built ← (params ps).gives N
  let t ← (type false none result).gives N
  (Signature.ofParts built t).toOption

/-- The object of a type expression with an index, if there is such a key. -/
def site? (N : Naming) (name : Option String) (ps : List (PropertySig TypeExpr)) (key : Prim)
    (value : TypeExpr) (span : Option Span) : Option Site := do
  let fs ← (fields span [] [] ps).gives N
  let v ← (type false none value).gives N
  let k ← (Key.ofPrim key).toOption
  some ⟨fs, ⟨k, v⟩, name, span⟩

/-- The object of an interface, if it has an index of its own or inherits one. -/
def interfaceSite? (N : Naming) (name : String) (properties : List (PropertySig TypeExpr))
    (index : Option (IndexSig TypeExpr)) (bases : List (String × Option Span))
    (span : Option Span) : Option Site := do
  let inherited ← (inherit ⟨[], none⟩ bases).gives N
  let fs ← (fields span [] inherited.fields properties).gives N
  let declared ← (ownIndex span index).gives N
  let wanted ← if index.isNone then inherited.index else declared
  some ⟨fs, wanted, some name, span⟩

end Build

namespace TypeExpr

mutual
/-- The objects with an index that are built for a type expression. Properties that are declared
again are not built, nor is anything after a malformed signature. -/
def sites (N : Naming) (name : Option String) : TypeExpr → List Site
  | .array e => e.sites N none
  | .tuple es | .union es | .inter es => sitesOfAll N es
  | .object ps none _ => sitesOfProperties N [] ps
  | .object ps (some ⟨key, value, _⟩) span =>
    sitesOfProperties N [] ps ++ value.sites N none ++
      (Build.site? N name ps key value span).toList
  | .func ss none | .ctor ss => sitesOfSignatures N ss
  | .func ss (some r) => sitesOfSignatures N ss ++
    match (Build.signatures ss).gives N with
    | some (some (_ :: _)) => r.sites N none
    | _ => []
  | .named _ _ | .prim _ | .literal _ _ | .misplaced _ => []

def sitesOfAll (N : Naming) : List TypeExpr → List Site
  | [] => []
  | e :: es => e.sites N none ++ sitesOfAll N es

def sitesOfProperties (N : Naming) (own : List String) :
    List (PropertySig TypeExpr) → List Site
  | [] => []
  | ⟨n, e, _, _⟩ :: ps =>
    if own.contains n then sitesOfProperties N own ps
    else e.sites N none ++ sitesOfProperties N (n :: own) ps

def sitesOfParams (N : Naming) : List (ParamExpr TypeExpr) → List Site
  | [] => []
  | ⟨_, e, _, _⟩ :: ps => e.sites N none ++ sitesOfParams N ps

def sitesOfSignatures (N : Naming) : List (SignatureExpr TypeExpr) → List Site
  | [] => []
  | ⟨ps, r, _⟩ :: ss => sitesOfParams N ps ++ r.sites N none ++
    if (Build.signature? N ps r).isSome then sitesOfSignatures N ss else []
end

end TypeExpr

namespace Recipe
variable {P : α → Prop} {r : Recipe α} {f : α → Recipe β} {defined : String → Bool}
  {os os' : List Site}

/-- What a safe recipe results in is as required. -/
theorem Safe.under (h : r.Safe φ P) (hN : N.Fair φ defined) {a : α}
    (ha : (r.under N).result = .ok a) : P a := by
  induction r with
  | done result =>
    cases ha
    exact h
  | resolve name span next ih => exact ih _ (h.1 _ (hN.firm name)) ha
  | unwrap type next ih =>
    refine ih _ (h.2.1 _ ?_) ha
    cases type with
    | ref n => exact (hN.firm n).within
    | _ => exact h.1
  | isDefined name next ih => exact ih _ (h _ fun hk => hN.named name (hN.known name ▸ hk)) ha
  | report problem next ih => exact ih h.2 ha
  | postpone duty next ih => exact ih h.2 ha

theorem gives_eq_some {a : α} (h : (r.under N).result = .ok a) : r.gives N = some a := by
  rw [gives, h]
  rfl

/-- The parts of a result. -/
theorem result_bind {b : β} (h : ((r >>= f).under N).result = .ok b) :
    ∃ a, (r.under N).result = .ok a ∧ ((f a).under N).result = .ok b ∧
      ((r >>= f).under N).left = (r.under N).left ++ ((f a).under N).left := by
  rw [under_bind] at h ⊢
  cases hr : (r.under N).result with
  | error e => simp [Deeds.bind, hr] at h
  | ok a =>
    rw [Deeds.bind_ok hr] at h ⊢
    exact ⟨a, rfl, h, rfl⟩

/-- If the recipe comes to a result, it builds these objects, and what it leaves behind brings up
the problems with their indexes. -/
def Brings (φ : Features) (N : Naming) (R : Reading) (os : List Site) (r : Recipe α) : Prop :=
  ∀ a, (r.under N).result = .ok a →
    (r.under N).left.flatMap (Deed.violations R) = os.flatMap (Site.reports R) ∧
      ∀ o ∈ os, o.Within φ

theorem brings_nil (h : (r.under N).left.flatMap (Deed.violations R) = []) :
    r.Brings φ N R [] :=
  fun _ _ => ⟨h, by simp⟩

theorem brings_pure (a : α) : (pure a : Recipe α).Brings φ N R [] := brings_nil rfl

theorem brings_named (n : String) (span : Option Span) : (named n span).Brings φ N R [] :=
  brings_nil rfl

theorem brings_say {d : Diagnostic} (h : d.kind ≠ .indexSignatureViolation) :
    (say d).Brings φ N R [] :=
  brings_nil (by simp [Deed.violations, h])

theorem Brings.bind (h : r.Brings φ N R os)
    (hf : ∀ a, (r.under N).result = .ok a → (f a).Brings φ N R os') :
    (r >>= f).Brings φ N R (os ++ os') := by
  intro b hb
  obtain ⟨a, ha, hfa, hleft⟩ := result_bind hb
  obtain ⟨hv, ho⟩ := h a ha
  obtain ⟨hv', ho'⟩ := hf a ha b hfa
  rw [hleft]
  simp only [List.flatMap_append, hv, hv', true_and]
  exact List.forall_mem_append.mpr ⟨ho, ho'⟩

/-- After the last object nothing more is built. -/
theorem Brings.bind_pure (h : r.Brings φ N R os) (g : α → β) :
    (r >>= fun a => pure (g a)).Brings φ N R os := by
  have hb : (r >>= fun a => pure (g a)).Brings φ N R (os ++ []) :=
    h.bind fun a _ => brings_pure (g a)
  rwa [List.append_nil] at hb

/-- Before the first object nothing is built. -/
theorem Brings.nil_bind (h : r.Brings φ N R [])
    (hf : ∀ a, (r.under N).result = .ok a → (f a).Brings φ N R os) :
    (r >>= f).Brings φ N R os :=
  h.bind hf

end Recipe

namespace Build
variable {defined : String → Bool} {fs : List (Field Ty)}
open Recipe

theorem brings_guarded (span : Option Span) (r : Except Defect α) :
    (guarded span r).Brings φ N R [] := by
  cases r with
  | ok a => exact brings_pure _
  | error d => exact (brings_say (by simp [Diagnostic.plain])).bind_pure _

theorem result_guarded (span : Option Span) (r : Except Defect α) :
    ((guarded span r).under N).result = .ok r.toOption := by
  cases r <;> rfl

theorem brings_needSignature (r : Option (List (Signature Ty))) :
    (needSignature r).Brings φ N R [] := by
  unfold needSignature
  split
  · exact (brings_say (by simp [Diagnostic.plain])).bind_pure _
  · exact brings_pure _

theorem brings_reference (eager : Bool) (n : String) (span : Option Span) :
    (reference eager n span).Brings φ N R [] := by
  cases eager with
  | true => exact brings_named n span
  | false =>
    refine Brings.nil_bind (brings_nil rfl) fun known _ => ?_
    cases known with
    | true => exact brings_pure _
    | false => exact brings_named n span

theorem brings_settleIndex (name : Option String) (span : Option Span) {i : Option (Index Ty)}
    (hf : Field.Within φ fs) (hi : ∀ j, i = some j → Ty.Within φ j.value) :
    (settleIndex fs name span i).Brings φ N R (i.toList.map (⟨fs, ·, name, span⟩)) := by
  cases i with
  | none => exact brings_pure _
  | some index =>
    have hwithin : ∀ o ∈ (some index).toList.map (Site.mk fs · name span), o.Within φ := by
      simpa using ⟨hf, hi index rfl⟩
    intro a ha
    refine ⟨?_, hwithin⟩
    unfold settleIndex at ha ⊢
    dsimp only at ha ⊢
    cases hobject : Ty.objectOf fs (some index) name with
    | ok t =>
      simp only [Option.toList_some, List.map_cons, List.map_nil, List.flatMap_cons,
        List.flatMap_nil, List.append_nil, Site.reports, hobject]
      split
      · simp [Deeds.bind, Deed.violations, Obligation.late]
      · rename_i hnone
        simp only [Bool.or_eq_true, List.any_eq_true, not_or, not_exists, not_and,
          Bool.not_eq_true] at hnone
        have hmisfits : Pass.misfits R index.value fs = [] :=
          List.filter_eq_nil_iff.mpr fun f hm => by simp [hnone.1, hnone.2 f hm]
        simp [hmisfits]
    | error e =>
      cases e with
      | defect d =>
        simp [Deeds.bind, Deed.violations, Site.reports, hobject, indexViolation]
      | _ => simp [hobject, Recipe.fail, Recipe.under] at ha

mutual
theorem brings_type (hN : N.Fair φ defined) (eager : Bool) (name : Option String) (e : TypeExpr)
    (h : ∀ u ∈ e.parts, φ.Covers u) : (type eager name e).Brings φ N R (e.sites N name) := by
  cases e with
  | named n span => exact brings_reference eager n span
  | prim k => exact brings_pure _
  | literal v span =>
    refine (brings_guarded span _).nil_bind fun l _ => ?_
    cases l <;> exact brings_pure _
  | array e =>
    simp only [TypeExpr.parts, List.forall_mem_cons] at h
    exact (brings_type hN eager none e h.2).bind_pure _
  | tuple es =>
    simp only [TypeExpr.parts, List.forall_mem_cons] at h
    exact (brings_types hN eager es h.2).bind_pure _
  | union ms =>
    simp only [TypeExpr.parts, List.forall_mem_cons] at h
    exact (brings_types hN eager ms h.2).bind_pure _
  | inter ms =>
    simp only [TypeExpr.parts, List.forall_mem_cons] at h
    exact (brings_types hN eager ms h.2).bind_pure _
  | object ps index span =>
    cases index with
    | none =>
      simp only [TypeExpr.parts, List.forall_mem_cons] at h
      exact (brings_fields hN span [] [] ps h.2).bind_pure _
    | some i =>
      obtain ⟨key, value, place⟩ := i
      simp only [TypeExpr.parts, List.forall_mem_cons, List.forall_mem_append] at h
      simp only [TypeExpr.sites, List.append_assoc]
      refine (brings_fields hN span [] [] ps h.2.1).bind fun fs hfs => ?_
      refine (brings_type hN false none value h.2.2).bind fun v hv => ?_
      refine (brings_guarded (place <|> span) _).nil_bind fun k hk => ?_
      rw [result_guarded] at hk
      cases hk
      have hf := (safe_fields span [] ps h.2.1 Field.within_nil).under hN hfs
      have ht := ((safe_type false none value h.2.2).under hN hv).within
      have hsite : (site? N name ps key value span).toList =
          ((Key.ofPrim key).toOption.map (Index.mk · v)).toList.map (⟨fs, ·, name, span⟩) := by
        cases hkey : (Key.ofPrim key).toOption <;>
          simp [site?, gives_eq_some hfs, gives_eq_some hv, hkey]
      rw [hsite]
      refine (brings_settleIndex name span hf fun j hj => ?_).bind_pure _
      obtain ⟨k, -, rfl⟩ := Option.map_eq_some_iff.mp hj
      exact ht
  | func ss receiver =>
    cases receiver with
    | none =>
      simp only [TypeExpr.parts, List.forall_mem_cons] at h
      simp only [TypeExpr.sites]
      rw [← List.append_nil (TypeExpr.sitesOfSignatures N ss)]
      refine (brings_signatures hN ss h.2).bind fun r _ => (brings_needSignature r).nil_bind
        fun r _ => ?_
      cases r <;> exact brings_pure _
    | some receiver =>
      simp only [TypeExpr.parts, List.forall_mem_cons, List.forall_mem_append] at h
      simp only [TypeExpr.sites]
      refine (brings_signatures hN ss h.2.1).bind fun r hr => (brings_needSignature r).nil_bind
        fun r' hr' => ?_
      rw [gives_eq_some hr]
      rcases r with - | (- | ⟨s, built⟩)
      · cases hr'
        exact brings_pure _
      · cases hr'
        exact brings_pure _
      · cases hr'
        exact (brings_type hN false none receiver h.2.2).bind_pure _
  | ctor ss =>
    simp only [TypeExpr.parts, List.forall_mem_cons] at h
    simp only [TypeExpr.sites]
    rw [← List.append_nil (TypeExpr.sitesOfSignatures N ss)]
    refine (brings_signatures hN ss h.2).bind fun r _ => (brings_needSignature r).nil_bind
      fun r _ => ?_
    cases r <;> exact brings_pure _
  | misplaced node => exact brings_nil rfl

theorem brings_types (hN : N.Fair φ defined) (eager : Bool) (es : List TypeExpr)
    (h : ∀ u ∈ TypeExpr.partsOfAll es, φ.Covers u) :
    (types eager es).Brings φ N R (TypeExpr.sitesOfAll N es) := by
  cases es with
  | nil => exact brings_pure _
  | cons e es =>
    simp only [TypeExpr.partsOfAll, List.forall_mem_append] at h
    refine (brings_type hN eager none e h.1).bind fun t _ => ?_
    exact (brings_types hN eager es h.2).bind_pure _

theorem brings_fields (hN : N.Fair φ defined) (span : Option Span) (own : List String)
    (collected : List (Field Ty)) (ps : List (PropertySig TypeExpr))
    (h : ∀ u ∈ TypeExpr.partsOfProperties ps, φ.Covers u) :
    (fields span own collected ps).Brings φ N R (TypeExpr.sitesOfProperties N own ps) := by
  cases ps with
  | nil => exact brings_pure _
  | cons p ps =>
    obtain ⟨n, e, optional, place⟩ := p
    simp only [TypeExpr.partsOfProperties, List.forall_mem_append] at h
    simp only [fields, TypeExpr.sitesOfProperties]
    split
    · exact (brings_say (by simp [Diagnostic.plain])).nil_bind fun _ _ =>
        brings_fields hN span own collected ps h.2
    · exact (brings_type hN false none e h.1).bind fun t _ =>
        brings_fields hN span (n :: own) _ ps h.2

theorem brings_params (hN : N.Fair φ defined) (ps : List (ParamExpr TypeExpr))
    (h : ∀ u ∈ TypeExpr.partsOfParams ps, φ.Covers u) :
    (params ps).Brings φ N R (TypeExpr.sitesOfParams N ps) := by
  cases ps with
  | nil => exact brings_pure _
  | cons p ps =>
    obtain ⟨n, e, optional, rest⟩ := p
    simp only [TypeExpr.partsOfParams, List.forall_mem_append] at h
    refine (brings_type hN false none e h.1).bind fun t _ => ?_
    exact (brings_params hN ps h.2).bind_pure _

theorem brings_signatures (hN : N.Fair φ defined) (ss : List (SignatureExpr TypeExpr))
    (h : ∀ u ∈ TypeExpr.partsOfSignatures ss, φ.Covers u) :
    (signatures ss).Brings φ N R (TypeExpr.sitesOfSignatures N ss) := by
  cases ss with
  | nil => exact brings_pure _
  | cons s ss =>
    obtain ⟨ps, r, span⟩ := s
    simp only [TypeExpr.partsOfSignatures, List.forall_mem_append] at h
    simp only [TypeExpr.sitesOfSignatures, List.append_assoc]
    refine (brings_params hN ps h.1.1).bind fun built hb => ?_
    refine (brings_type hN false none r h.1.2).bind fun result hr => ?_
    refine (brings_guarded span _).nil_bind fun o ho => ?_
    rw [result_guarded] at ho
    cases ho
    have hsignature : signature? N ps r = (Signature.ofParts built result).toOption := by
      simp [signature?, gives_eq_some hb, gives_eq_some hr]
    rw [hsignature]
    cases (Signature.ofParts built result).toOption with
    | none => exact brings_pure _
    | some s => exact (brings_signatures hN ss h.2).bind_pure _
end

theorem brings_inherit (acc : Inherited) (bases : List (String × Option Span)) :
    (inherit acc bases).Brings φ N R [] := by
  induction bases generalizing acc with
  | nil => exact brings_pure _
  | cons base bases ih =>
    obtain ⟨name, span⟩ := base
    refine (brings_named name span).nil_bind fun t _ => ?_
    refine Brings.nil_bind (brings_nil (by simp)) fun t _ => ?_
    split
    · exact ih _
    · exact ih _
    · exact ih _
    · exact (brings_say (by simp [Diagnostic.plain])).nil_bind fun _ _ => ih _

theorem brings_ownIndex (hN : N.Fair φ defined) (span : Option Span)
    {declared : Option (IndexSig TypeExpr)}
    (h : ∀ s, declared = some s → ∀ u ∈ s.value.parts, φ.Covers u) :
    (ownIndex span declared).Brings φ N R
      (declared.toList.flatMap (·.value.sites N none)) := by
  cases declared with
  | none => exact brings_pure _
  | some s =>
    simp only [Option.toList_some, List.flatMap_cons, List.flatMap_nil]
    refine (brings_type hN false none s.value (h s rfl)).bind fun v _ => ?_
    exact (brings_guarded _ _).bind_pure _

theorem interfaceSite?_eq (name : String) {properties : List (PropertySig TypeExpr)}
    {declared : Option (IndexSig TypeExpr)} {bases : List (String × Option Span)}
    (span : Option Span) {acc : Inherited} {own : Option (Index Ty)}
    (hacc : ((inherit ⟨[], none⟩ bases).under N).result = .ok acc)
    (hfs : ((fields span [] acc.fields properties).under N).result = .ok fs)
    (hown : ((ownIndex span declared).under N).result = .ok own) :
    interfaceSite? N name properties declared bases span =
      (if declared.isNone then acc.index else own).map (⟨fs, ·, some name, span⟩) := by
  cases declared with
  | none =>
    cases hi : acc.index <;>
      simp [interfaceSite?, gives_eq_some hacc, gives_eq_some hfs, gives_eq_some hown, hi]
  | some s =>
    cases own <;> simp [interfaceSite?, gives_eq_some hacc, gives_eq_some hfs, gives_eq_some hown]

theorem brings_ofInterface (hN : N.Fair φ defined) (name : String)
    (properties : List (PropertySig TypeExpr)) (declared : Option (IndexSig TypeExpr))
    (bases : List (String × Option Span)) (span : Option Span)
    (hp : ∀ u ∈ TypeExpr.partsOfProperties properties, φ.Covers u)
    (hd : declared.isSome → φ.index)
    (h : ∀ s, declared = some s → ∀ u ∈ s.value.parts, φ.Covers u) :
    (ofInterface name properties declared bases span).Brings φ N R
      (TypeExpr.sitesOfProperties N [] properties ++
        declared.toList.flatMap (·.value.sites N none) ++
          (interfaceSite? N name properties declared bases span).toList) := by
  have hstart : (⟨[], none⟩ : Inherited).Within φ := ⟨Field.within_nil, fun _ h => by cases h⟩
  simp only [List.append_assoc]
  refine (brings_inherit _ bases).nil_bind fun acc hacc => ?_
  have hwithin := (safe_inherit bases hstart).under hN hacc
  refine (brings_fields hN span [] _ properties hp).bind fun fs hfs => ?_
  have hf := (safe_fields span [] properties hp hwithin.fields).under hN hfs
  refine (brings_ownIndex hN span h).bind fun own hown => ?_
  have hi := (safe_ownIndex span hd h).under hN hown
  rw [interfaceSite?_eq name span hacc hfs hown, Option.toList_map,
    ← List.append_nil (List.map _ _)]
  refine (brings_settleIndex _ span hf ?_).bind fun kept _ => ?_
  · split
    · exact fun j hj => (hwithin.index j hj).2
    · exact fun j hj => (hi j hj).2
  · exact brings_nil (by simp [Deeds.bind, Deed.violations, Obligation.late])

end Build
end ShapeCheck
