import ShapeCheck.Env.Recipe
import ShapeCheck.Proofs.Ty.Within

/-! Recipes that pass faults on, and what a recipe does if every name has its type already. -/

namespace ShapeCheck
variable {φ : Features} {α β : Type}

def Obligation.Within (φ : Features) : Obligation → Prop
  | .index fs i _ _ => (∀ f ∈ fs, Ty.Within φ f.type) ∧ Ty.Within φ i.value
  | .refinement _ _ fs gs => (∀ f ∈ fs, Ty.Within φ f.type) ∧ ∀ f ∈ gs, Ty.Within φ f.type

/-- Problems found by looking a name up. Recipes report problems of other kinds only. -/
def Diagnostic.Kind.ofLookup : Diagnostic.Kind → Bool
  | .circularAlias | .unresolvedReference => true
  | _ => false

namespace Recipe

/-- Given types as they should be, the recipe results in what is required or stops at a fault
that is allowed for. A fault that it meets on the way is passed on. -/
def Safe (φ : Features) (Post : α → Prop) : Recipe α → Prop
  | .done (.ok a) => Post a
  | .done (.error e) => φ.Err e
  | .resolve _ _ next =>
    (∀ t, Ty.Firm φ t → (next (.ok t)).Safe φ Post) ∧ ∀ e, next (.error e) = .done (.error e)
  | .unwrap type next => Ty.Within φ type ∧ (∀ t, Ty.Within φ t → (next (.ok t)).Safe φ Post) ∧
    ∀ e, next (.error e) = .done (.error e)
  | .isDefined name next => ∀ b : Bool, (b → φ.known name) → (next b).Safe φ Post
  | .report problem next => problem.kind.ofLookup = false ∧ next.Safe φ Post
  | .postpone duty next => duty.Within φ ∧ next.Safe φ Post

variable {P Q : α → Prop} {r : Recipe α}

theorem safe_pure {a : α} (h : P a) : (pure a : Recipe α).Safe φ P := h

theorem safe_named (name : String) (span : Option Span) : (named name span).Safe φ (Ty.Firm φ) :=
  ⟨fun _ ht => ht, fun _ => rfl⟩

theorem safe_unwrapped {t : Ty} (h : Ty.Within φ t) : (unwrapped t).Safe φ (Ty.Within φ) :=
  ⟨h, fun _ ht => ht, fun _ => rfl⟩

theorem safe_knows (name : String) :
    (knows name).Safe φ fun b : Bool => b → φ.known name := fun _ h => h

theorem safe_say {d : Diagnostic} (h : d.kind.ofLookup = false) :
    (say d).Safe φ fun _ => True := ⟨h, trivial⟩

theorem safe_later {duty : Obligation} (h : duty.Within φ) : (later duty).Safe φ fun _ => True :=
  ⟨h, trivial⟩

theorem Safe.bind {P : α → Prop} {Q : β → Prop} {f : α → Recipe β} (h : r.Safe φ P)
    (hf : ∀ a, P a → (f a).Safe φ Q) : (r >>= f).Safe φ Q := by
  show (Recipe.bind f r).Safe φ Q
  induction r with
  | done result =>
    cases result with
    | ok a => exact hf a h
    | error e => exact h
  | resolve name span next ih =>
    refine ⟨fun t ht => ih _ (h.1 t ht), fun e => ?_⟩
    simp only [h.2 e, Recipe.bind]
  | unwrap type next ih =>
    refine ⟨h.1, fun t ht => ih _ (h.2.1 t ht), fun e => ?_⟩
    simp only [h.2.2 e, Recipe.bind]
  | isDefined name next ih => exact fun b hb => ih b (h b hb)
  | report problem next ih => exact ⟨h.1, ih h.2⟩
  | postpone duty next ih => exact ⟨h.1, ih h.2⟩

theorem Safe.imp {P Q : α → Prop} (h : r.Safe φ P) (hi : ∀ a, P a → Q a) : r.Safe φ Q := by
  induction r with
  | done result =>
    cases result with
    | ok a => exact hi a h
    | error e => exact h
  | resolve name span next ih => exact ⟨fun t ht => ih _ (h.1 t ht), h.2⟩
  | unwrap type next ih => exact ⟨h.1, fun t ht => ih _ (h.2.1 t ht), h.2.2⟩
  | isDefined name next ih => exact fun b hb => ih b (h b hb)
  | report problem next ih => exact ⟨h.1, ih h.2⟩
  | postpone duty next ih => exact ⟨h.1, ih h.2⟩

end Recipe

/-- The names there are, and what every name is bound to. -/
structure Naming where
  known : String → Bool
  bound : String → Ty

namespace Naming

/-- What a type stands for. -/
def look (N : Naming) : Ty → Ty
  | .ref n => N.bound n
  | t => t

theorem look_of_not_ref (N : Naming) {t : Ty} (h : ∀ n, t ≠ .ref n) : N.look t = t := by
  cases t with
  | ref n => exact (h n rfl).elim
  | _ => rfl

/-- The names that are looked up to find what a type stands for. -/
def sought : Ty → List String
  | .ref n => [n]
  | _ => []

theorem sought_of_not_ref {t : Ty} (h : ∀ n, t ≠ .ref n) : sought t = [] := by
  cases t with
  | ref n => exact (h n rfl).elim
  | _ => rfl

/-- Names are bound to types that names can be bound to, and `any` stands for unknown ones. -/
structure Fair (φ : Features) (defined : String → Bool) (N : Naming) : Prop where
  known : ∀ n, N.known n = defined n
  named : ∀ n, defined n → φ.known n
  firm : ∀ n, Ty.Firm φ (N.bound n)
  missing : ∀ n, defined n = false → N.bound n = Ty.any

end Naming

/-- Something that a recipe leaves behind: a problem, or a check for later. -/
inductive Deed where
  | say (problem : Diagnostic)
  | owe (duty : Obligation)

/-- What a recipe comes to: its result, the names it asks for, and what it leaves behind. -/
structure Deeds (α : Type) where
  result : Except Fault α
  asked : List String
  left : List Deed

def Deeds.bind (d : Deeds α) (f : α → Deeds β) : Deeds β :=
  match d.result with
  | .ok a => ⟨(f a).result, d.asked ++ (f a).asked, d.left ++ (f a).left⟩
  | .error e => ⟨.error e, d.asked, d.left⟩

theorem Deeds.bind_ok {d : Deeds α} {a : α} (h : d.result = .ok a) (f : α → Deeds β) :
    d.bind f = ⟨(f a).result, d.asked ++ (f a).asked, d.left ++ (f a).left⟩ := by
  simp only [Deeds.bind, h]

namespace Recipe
variable (N : Naming)

/-- A recipe read with names that are bound already. -/
def under : Recipe α → Deeds α
  | .done result => ⟨result, [], []⟩
  | .resolve name _ next =>
    let d := (next (.ok (N.bound name))).under
    { d with asked := name :: d.asked }
  | .unwrap type next =>
    let d := (next (.ok (N.look type))).under
    { d with asked := Naming.sought type ++ d.asked }
  | .isDefined name next => (next (N.known name)).under
  | .report problem next =>
    let d := next.under
    { d with left := .say problem :: d.left }
  | .postpone duty next =>
    let d := next.under
    { d with left := .owe duty :: d.left }

@[simp]
theorem under_bind (r : Recipe α) (f : α → Recipe β) :
    (r >>= f).under N = (r.under N).bind fun a => (f a).under N := by
  show (Recipe.bind f r).under N = _
  induction r with
  | done result => cases result <;> rfl
  | resolve name span next ih =>
    simp only [Recipe.bind, under, ih, Deeds.bind]
    split <;> rfl
  | unwrap type next ih =>
    simp only [Recipe.bind, under, ih, Deeds.bind]
    split <;> simp
  | isDefined name next ih => exact ih _
  | report problem next ih =>
    simp only [Recipe.bind, under, ih, Deeds.bind]
    split <;> rfl
  | postpone duty next ih =>
    simp only [Recipe.bind, under, ih, Deeds.bind]
    split <;> rfl

@[simp]
theorem under_pure (a : α) : (pure a : Recipe α).under N = ⟨.ok a, [], []⟩ := rfl

@[simp]
theorem under_named (name : String) (span : Option Span) :
    (named name span).under N = ⟨.ok (N.bound name), [name], []⟩ := rfl

@[simp]
theorem under_unwrapped (t : Ty) :
    (unwrapped t).under N = ⟨.ok (N.look t), Naming.sought t, []⟩ := by
  simp [unwrapped, under]

@[simp]
theorem under_knows (name : String) : (knows name).under N = ⟨.ok (N.known name), [], []⟩ := rfl

@[simp]
theorem under_say (d : Diagnostic) : (say d).under N = ⟨.ok (), [], [.say d]⟩ := rfl

@[simp]
theorem under_later (duty : Obligation) : (later duty).under N = ⟨.ok (), [], [.owe duty]⟩ := rfl

end Recipe
end ShapeCheck
