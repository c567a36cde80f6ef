import ShapeCheck.Proofs.Env.Resolve
import ShapeCheck.Proofs.Tree.Build

/-! The graph of the names that a program declares, with an edge from a name to each declared one
that its declaration needs at once. The recipe of a declaration asks for these names and, as long
as it comes to a result, for all of them. -/

namespace ShapeCheck

namespace TypeExpr

mutual
/-- The names that stand at the top, among members or among elements, on every level. -/
def eager : TypeExpr → List String
  | .named n _ => [n]
  | .array e => e.eager
  | .tuple es | .union es | .inter es => eagerOfAll es
  | .prim _ | .literal _ _ | .object _ _ _ | .func _ _ | .ctor _ | .misplaced _ => []

def eagerOfAll : List TypeExpr → List String
  | [] => []
  | e :: es => e.eager ++ eagerOfAll es
end

end TypeExpr

namespace Recipe
variable {α β : Type} {N : Naming} {P : String → Prop} {r : Recipe α} {f : α → Recipe β}
  {n : String}

/-- Every known name that the recipe asks for is one of some kind. -/
def AsksOnly (N : Naming) (P : String → Prop) (r : Recipe α) : Prop :=
  ∀ n ∈ (r.under N).asked, N.known n → P n

theorem asksOnly_of_asked_nil (h : (r.under N).asked = []) : r.AsksOnly N P := by
  simp [AsksOnly, h]

theorem asksOnly_pure (a : α) : (pure a : Recipe α).AsksOnly N P := asksOnly_of_asked_nil rfl

theorem asksOnly_say (d : Diagnostic) : (say d).AsksOnly N P := asksOnly_of_asked_nil rfl

theorem asksOnly_named {span : Option Span} (h : N.known n → P n) :
    (named n span).AsksOnly N P := by
  simpa [AsksOnly] using h

theorem AsksOnly.bind (h : r.AsksOnly N P)
    (hf : ∀ a, (r.under N).result = .ok a → (f a).AsksOnly N P) : (r >>= f).AsksOnly N P := by
  unfold AsksOnly
  rw [under_bind]
  cases hr : (r.under N).result with
  | error e =>
    simp only [Deeds.bind, hr]
    exact h
  | ok a =>
    rw [Deeds.bind_ok hr]
    exact List.forall_mem_append.mpr ⟨h, hf a hr⟩

/-- If the recipe comes to a result, it has asked for the name. -/
def Asks (N : Naming) (n : String) (r : Recipe α) : Prop :=
  ∀ a, (r.under N).result = .ok a → n ∈ (r.under N).asked

theorem asks_named (N : Naming) (n : String) (span : Option Span) : (named n span).Asks N n := by
  simp [Asks]

theorem Asks.bind (h : r.Asks N n) : (r >>= f).Asks N n := by
  intro b hb
  rw [under_bind] at hb ⊢
  cases hr : (r.under N).result with
  | error e => simp [Deeds.bind, hr] at hb
  | ok a =>
    rw [Deeds.bind_ok hr]
    exact List.mem_append_left _ (h a hr)

theorem asks_bind (h : ∀ a, (r.under N).result = .ok a → (f a).Asks N n) : (r >>= f).Asks N n := by
  intro b hb
  rw [under_bind] at hb ⊢
  cases hr : (r.under N).result with
  | error e => simp [Deeds.bind, hr] at hb
  | ok a =>
    rw [Deeds.bind_ok hr] at hb ⊢
    exact List.mem_append_right _ (h a hr b hb)

end Recipe

namespace Build
variable {N : Naming} {P : String → Prop} {α : Type} {φ : Features} {defined : String → Bool}
open Recipe

theorem asksOnly_guarded (span : Option Span) (r : Except Defect α) :
    (guarded span r).AsksOnly N P := by
  cases r <;> exact asksOnly_of_asked_nil rfl

theorem asksOnly_settleIndex (fs : List (Field Ty)) (name : Option String) (span : Option Span)
    (i : Option (Index Ty)) : (settleIndex fs name span i).AsksOnly N P := by
  refine asksOnly_of_asked_nil ?_
  cases i with
  | none => rfl
  | some index =>
    unfold settleIndex
    dsimp only
    split
    · split <;> rfl
    · rfl
    · rfl

theorem asksOnly_needSignature (r : Option (List (Signature Ty))) :
    (needSignature r).AsksOnly N P := by
  refine asksOnly_of_asked_nil ?_
  unfold needSignature
  split <;> rfl

theorem asksOnly_reference {eager : Bool} {n : String} (span : Option Span)
    (h : eager = true → P n) : (reference eager n span).AsksOnly N P := by
  cases eager with
  | true => exact asksOnly_named fun _ => h rfl
  | false =>
    refine AsksOnly.bind (asksOnly_of_asked_nil rfl) fun known hk => ?_
    simp only [under_knows, Except.ok.injEq] at hk
    subst hk
    by_cases hn : N.known n
    · simp only [hn, if_true]
      exact asksOnly_pure _
    · simp only [hn]
      exact asksOnly_named fun hk => (hn hk).elim

mutual
/-- A recipe asks for names in eager positions only, apart from undefined ones. -/
theorem asksOnly_type (eager : Bool) (name : Option String) (e : TypeExpr)
    (h : eager = true → ∀ n ∈ e.eager, P n) : (type eager name e).AsksOnly N P := by
  cases e with
  | named n span => exact asksOnly_reference span fun he => h he n (by simp [TypeExpr.eager])
  | prim k => exact asksOnly_pure _
  | literal v span =>
    refine (asksOnly_guarded span _).bind fun l _ => ?_
    cases l <;> exact asksOnly_pure _
  | array e =>
    simp only [TypeExpr.eager] at h
    exact (asksOnly_type eager none e h).bind fun t _ => asksOnly_pure _
  | tuple es =>
    simp only [TypeExpr.eager] at h
    exact (asksOnly_types eager es h).bind fun ts _ => asksOnly_pure _
  | union ms =>
    simp only [TypeExpr.eager] at h
    exact (asksOnly_types eager ms h).bind fun ts _ => asksOnly_pure _
  | inter ms =>
    simp only [TypeExpr.eager] at h
    exact (asksOnly_types eager ms h).bind fun ts _ => asksOnly_pure _
  | object ps index span =>
    cases index with
    | none => exact (asksOnly_fields span [] [] ps).bind fun fs _ => asksOnly_pure _
    | some i =>
      obtain ⟨key, value, place⟩ := i
      refine (asksOnly_fields span [] [] ps).bind fun fs _ => ?_
      refine (asksOnly_type false none value (by simp)).bind fun v _ => ?_
      refine (asksOnly_guarded _ _).bind fun k _ => ?_
      exact (asksOnly_settleIndex fs name span _).bind fun i _ => asksOnly_pure _
  | func ss receiver =>
    cases receiver with
    | none =>
      refine (asksOnly_signatures ss).bind fun r _ => (asksOnly_needSignature r).bind fun r _ => ?_
      cases r <;> exact asksOnly_pure _
    | some receiver =>
      refine (asksOnly_signatures ss).bind fun r _ => (asksOnly_needSignature r).bind fun r _ => ?_
      cases r with
      | none => exact asksOnly_pure _
      | some built =>
        exact (asksOnly_type false none receiver (by simp)).bind fun t _ => asksOnly_pure _
  | ctor ss =>
    refine (asksOnly_signatures ss).bind fun r _ => (asksOnly_needSignature r).bind fun r _ => ?_
    cases r <;> exact asksOnly_pure _
  | misplaced node => exact asksOnly_of_asked_nil rfl

theorem asksOnly_types (eager : Bool) (es : List TypeExpr)
    (h : eager = true → ∀ n ∈ TypeExpr.eagerOfAll es, P n) : (types eager es).AsksOnly N P := by
  cases es with
  | nil => exact asksOnly_pure _
  | cons e es =>
    simp only [TypeExpr.eagerOfAll, List.forall_mem_append] at h
    refine (asksOnly_type eager none e fun he => (h he).1).bind fun t _ => ?_
    exact (asksOnly_types eager es fun he => (h he).2).bind fun ts _ => asksOnly_pure _

theorem asksOnly_fields (span : Option Span) (own : List String) (collected : List (Field Ty))
    (ps : List (PropertySig TypeExpr)) : (fields span own collected ps).AsksOnly N P := by
  cases ps with
  | nil => exact asksOnly_pure _
  | cons p ps =>
    obtain ⟨n, e, optional, place⟩ := p
    simp only [fields]
    split
    · exact (asksOnly_say _).bind fun _ _ => asksOnly_fields span own collected ps
    · exact (asksOnly_type false none e (by simp)).bind fun t _ => asksOnly_fields span _ _ ps

theorem asksOnly_params (ps : List (ParamExpr TypeExpr)) : (params ps).AsksOnly N P := by
  cases ps with
  | nil => exact asksOnly_pure _
  | cons p ps =>
    obtain ⟨n, e, optional, rest⟩ := p
    refine (asksOnly_type false none e (by simp)).bind fun t _ => ?_
    exact (asksOnly_params ps).bind fun built _ => asksOnly_pure _

theorem asksOnly_signatures (ss : List (SignatureExpr TypeExpr)) :
    (signatures ss).AsksOnly N P := by
  cases ss with
  | nil => exact asksOnly_pure _
  | cons s ss =>
    obtain ⟨ps, r, span⟩ := s
    refine (asksOnly_params ps).bind fun built _ => ?_
    refine (asksOnly_type false none r (by simp)).bind fun result _ => ?_
    refine (asksOnly_guarded _ _).bind fun o _ => ?_
    cases o with
    | none => exact asksOnly_pure _
    | some s => exact (asksOnly_signatures ss).bind fun later _ => asksOnly_pure _
end

mutual
/-- A recipe that comes to a result has asked for every name in an eager position. -/
theorem asks_type {n : String} (name : Option String) (e : TypeExpr) (h : n ∈ e.eager) :
    (type true name e).Asks N n := by
  cases e with
  | named m span =>
    cases List.mem_singleton.mp h
    exact asks_named N n span
  | array e => exact (asks_type none e h).bind
  | tuple es => exact (asks_types es h).bind
  | union ms => exact (asks_types ms h).bind
  | inter ms => exact (asks_types ms h).bind
  | _ => cases h

theorem asks_types {n : String} (es : List TypeExpr) (h : n ∈ TypeExpr.eagerOfAll es) :
    (types true es).Asks N n := by
  cases es with
  | nil => cases h
  | cons e es =>
    rcases List.mem_append.mp h with h | h
    · exact (asks_type none e h).bind
    · exact asks_bind fun t _ => (asks_types es h).bind
end

theorem asksOnly_unwrapped (hN : N.Fair φ defined) (n : String) :
    (unwrapped (N.bound n)).AsksOnly N P := by
  refine asksOnly_of_asked_nil ?_
  rw [under_unwrapped]
  exact Naming.sought_of_not_ref (hN.firm n).grounded.not_ref

theorem asksOnly_inherit (hN : N.Fair φ defined) (acc : Inherited)
    (bases : List (String × Option Span)) (h : ∀ b ∈ bases, P b.1) :
    (inherit acc bases).AsksOnly N P := by
  induction bases generalizing acc with
  | nil => exact asksOnly_pure _
  | cons base bases ih =>
    obtain ⟨name, span⟩ := base
    obtain ⟨hb, h⟩ := List.forall_mem_cons.mp h
    refine (asksOnly_named fun _ => hb).bind fun t ht => ?_
    cases ht
    refine (asksOnly_unwrapped hN name).bind fun t _ => ?_
    split
    · exact ih _ h
    · exact ih _ h
    · exact ih _ h
    · exact (asksOnly_say _).bind fun _ _ => ih _ h

theorem asks_inherit {n : String} (acc : Inherited) (bases : List (String × Option Span))
    (h : n ∈ bases.map (·.1)) : (inherit acc bases).Asks N n := by
  induction bases generalizing acc with
  | nil => cases h
  | cons base bases ih =>
    obtain ⟨name, span⟩ := base
    rcases List.mem_cons.mp h with rfl | h
    · exact (asks_named N _ span).bind
    · refine asks_bind fun t _ => asks_bind fun t _ => ?_
      split
      · exact ih _ h
      · exact ih _ h
      · exact ih _ h
      · exact asks_bind fun _ _ => ih _ h

theorem asksOnly_ofInterface (hN : N.Fair φ defined) (name : String)
    (properties : List (PropertySig TypeExpr)) (index : Option (IndexSig TypeExpr))
    (bases : List (String × Option Span)) (span : Option Span) (h : ∀ b ∈ bases, P b.1) :
    (ofInterface name properties index bases span).AsksOnly N P := by
  refine (asksOnly_inherit hN _ bases h).bind fun acc _ => ?_
  refine (asksOnly_fields span [] _ properties).bind fun fs _ => ?_
  have hown : (ownIndex span index).AsksOnly N P := by
    cases index with
    | none => exact asksOnly_pure _
    | some i =>
      refine (asksOnly_type false none i.value (by simp)).bind fun v _ => ?_
      exact (asksOnly_guarded _ _).bind fun k _ => asksOnly_pure _
  refine hown.bind fun own _ => (asksOnly_settleIndex fs _ span _).bind fun kept _ => ?_
  exact asksOnly_of_asked_nil rfl

end Build

namespace Decl

/-- The names that a declaration of a type needs at once: those in eager positions of the body of
an alias, and the bases of an interface. -/
def eager : Decl → List String
  | .typeAlias _ body _ => body.eager
  | .interface _ _ _ bases _ => bases.map (·.1)
  | _ => []

/-- The recipe of the type that is declared. -/
def recipe : Decl → Recipe Ty
  | .typeAlias name body _ => Build.ofAlias name body
  | .interface name properties index bases span =>
    Build.ofInterface name properties index bases span
  | _ => default

variable {φ : Features} {d : Decl} {N : Naming}

theorem safe_recipe (h : d.Within φ) (hn : d.typeName.isSome) :
    d.recipe.Safe φ (Ty.Firm φ) := by
  cases d with
  | typeAlias name body span => exact Build.safe_ofAlias name body h.types
  | interface name properties index bases span =>
    obtain ⟨hproperties, hvalue⟩ := List.forall_mem_append.mp h.types
    refine Build.safe_ofInterface name properties index bases span hproperties ?_ ?_
    · intro hsome
      obtain ⟨i, rfl⟩ := Option.isSome_iff_exists.mp hsome
      exact h.index rfl
    · rintro i rfl
      simpa using hvalue
  | _ => cases hn

theorem asksOnly_recipe {defined : String → Bool} (hN : N.Fair φ defined) (d : Decl) :
    d.recipe.AsksOnly N (· ∈ d.eager) := by
  cases d with
  | typeAlias name body span => exact Build.asksOnly_type true _ body fun _ _ => id
  | interface name properties index bases span =>
    exact Build.asksOnly_ofInterface hN name properties index bases span fun b hb =>
      List.mem_map_of_mem hb
  | _ => exact Recipe.asksOnly_of_asked_nil rfl

theorem asks_recipe {n : String} (h : n ∈ d.eager) : d.recipe.Asks N n := by
  cases d with
  | typeAlias name body span => exact Build.asks_type _ body h
  | interface name properties index bases span => exact (Build.asks_inherit _ bases h).bind
  | _ => cases h

end Decl

namespace Program
variable {φ : Features} {p : Program}

/-- The second name is declared, and the declaration of the first needs it at once. -/
def Edge (p : Program) (u v : String) : Prop :=
  p.declares v ∧ ∃ d, p.declaration? u = some d ∧ v ∈ d.eager

/-- The recipes of the type names that a program declares. -/
def plan (p : Program) (h : p.Within φ) : Plan φ where
  known := p.declares
  recipe name := ((p.declaration? name).map (·.recipe)).getD default
  Edge := p.Edge
  named := h.known
  safe {u} hu := by
    obtain ⟨d, hd⟩ := Option.isSome_iff_exists.mp hu
    obtain ⟨hm, hn⟩ := declaration?_eq_some hd
    simp only [hd, Option.map_some, Option.getD_some]
    exact Decl.safe_recipe (h.declaration d hm) (by rw [hn]; rfl)
  asked {N u v} hN hu hv hk := by
    obtain ⟨d, hd⟩ := Option.isSome_iff_exists.mp hu
    simp only [hd, Option.map_some, Option.getD_some] at hv
    exact ⟨hk, d, hd, d.asksOnly_recipe hN v hv ((hN.known v).trans hk)⟩
  asks {N u v t} _ _ ht hv := by
    obtain ⟨hk, d, hd, he⟩ := hv
    simp only [hd, Option.map_some, Option.getD_some] at ht ⊢
    exact ⟨hk, d.asks_recipe he t ht⟩

end Program
end ShapeCheck
