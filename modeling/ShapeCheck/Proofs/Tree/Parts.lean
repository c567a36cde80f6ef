import ShapeCheck.Proofs.Ty.Within
import ShapeCheck.Tree.Basic

/-! The parts of program trees, and the features that a program has by its parts. -/

namespace ShapeCheck

namespace TypeExpr

mutual
/-- A type expression and all that it contains. -/
def parts : TypeExpr → List TypeExpr
  | .named n span => [.named n span]
  | .prim k => [.prim k]
  | .literal v span => [.literal v span]
  | .array e => .array e :: e.parts
  | .tuple es => .tuple es :: partsOfAll es
  | .object ps none span => .object ps none span :: partsOfProperties ps
  | .object ps (some ⟨key, value, place⟩) span =>
    .object ps (some ⟨key, value, place⟩) span :: (partsOfProperties ps ++ value.parts)
  | .union ms => .union ms :: partsOfAll ms
  | .inter ms => .inter ms :: partsOfAll ms
  | .func ss none => .func ss none :: partsOfSignatures ss
  | .func ss (some r) => .func ss (some r) :: (partsOfSignatures ss ++ r.parts)
  | .ctor ss => .ctor ss :: partsOfSignatures ss
  | .misplaced node => [.misplaced node]

def partsOfAll : List TypeExpr → List TypeExpr
  | [] => []
  | e :: es => e.parts ++ partsOfAll es

def partsOfProperties : List (PropertySig TypeExpr) → List TypeExpr
  | [] => []
  | ⟨_, e, _, _⟩ :: ps => e.parts ++ partsOfProperties ps

def partsOfParams : List (ParamExpr TypeExpr) → List TypeExpr
  | [] => []
  | ⟨_, e, _, _⟩ :: ps => e.parts ++ partsOfParams ps

def partsOfSignatures : List (SignatureExpr TypeExpr) → List TypeExpr
  | [] => []
  | ⟨ps, r, _⟩ :: ss => partsOfParams ps ++ r.parts ++ partsOfSignatures ss
end

end TypeExpr

namespace Expr

mutual
/-- An expression and all that it contains. -/
def parts : Expr → List Expr
  | .literal v span => [.literal v span]
  | .identifier name span => [.identifier name span]
  | .object assignments span => .object assignments span :: partsOfAssignments assignments
  | .array es span => .array es span :: partsOfAll es
  | .access owner name span => .access owner name span :: owner.parts
  | .call callee args none span =>
    .call callee args none span :: (callee.parts ++ partsOfAll args)
  | .call callee args (some receiver) span =>
    .call callee args (some receiver) span :: (callee.parts ++ receiver.parts ++ partsOfAll args)
  | .construct callee args span => .construct callee args span :: (callee.parts ++ partsOfAll args)
  | .misplaced node => [.misplaced node]

def partsOfAll : List Expr → List Expr
  | [] => []
  | e :: es => e.parts ++ partsOfAll es

def partsOfAssignments : List (Assignment Expr) → List Expr
  | [] => []
  | ⟨_, e, _⟩ :: rest => e.parts ++ partsOfAssignments rest
end

end Expr

namespace Decl

/-- The type name that a declaration is for. -/
def typeName : Decl → Option String
  | .typeAlias name _ _ | .interface name _ _ _ _ => some name
  | _ => none

/-- The type expressions of a declaration, on all levels. -/
def types : Decl → List TypeExpr
  | .typeAlias _ body _ => body.parts
  | .interface _ properties index _ _ =>
    TypeExpr.partsOfProperties properties ++ index.toList.flatMap (·.value.parts)
  | .value _ _ declared _ _ => declared.toList.flatMap (·.parts)
  | .func _ signatures receiver _ => (TypeExpr.func signatures receiver).parts
  | .statement _ | .misplaced _ => []

/-- The expressions of a declaration, on all levels. -/
def exprs : Decl → List Expr
  | .value _ _ _ initializer _ => initializer.toList.flatMap (·.parts)
  | .statement e => e.parts
  | _ => []

end Decl

/-- A node whose kind has no place where it stands. -/
def TypeExpr.isMisplaced : TypeExpr → Bool
  | .misplaced _ => true
  | _ => false

def TypeExpr.isInter : TypeExpr → Bool
  | .inter _ => true
  | _ => false

def TypeExpr.hasIndex : TypeExpr → Bool
  | .object _ (some _) _ => true
  | _ => false

/-- A node out of place, or a literal whose value is no value of a program. -/
def Expr.isMisplaced : Expr → Bool
  | .misplaced _ | .literal (.list _) _ => true
  | _ => false

def Decl.isMisplaced : Decl → Bool
  | .misplaced _ => true
  | _ => false

def Decl.hasIndex : Decl → Bool
  | .interface _ _ (some _) _ _ => true
  | d => d.types.any (·.hasIndex)

def Decl.hasInter (d : Decl) : Bool := d.types.any (·.isInter)

/-- Every node is of a kind that has a place where it stands, and every literal is null, a truth
value, a number or a text. -/
def Decl.wellFormed (d : Decl) : Bool :=
  !d.isMisplaced && d.types.all (!·.isMisplaced) && d.exprs.all (!·.isMisplaced)

namespace Program

/-- The first declaration of a type name. -/
def declaration? (p : Program) (name : String) : Option Decl :=
  p.declarations.find? (·.typeName = some name)

/-- The program declares an alias or an interface of that name. -/
def declares (p : Program) (name : String) : Bool := (p.declaration? name).isSome

theorem declaration?_eq_some {p : Program} {name : String} {d : Decl}
    (h : p.declaration? name = some d) : d ∈ p.declarations ∧ d.typeName = some name :=
  ⟨List.mem_of_find?_eq_some h, by simpa using List.find?_some h⟩

def wellFormed (p : Program) : Bool := p.declarations.all (·.wellFormed)

def hasInter (p : Program) : Bool := p.declarations.any (·.hasInter)

def hasIndex (p : Program) : Bool := p.declarations.any (·.hasIndex)

end Program

/-- A part of a program is one of those that the features allow for. -/
structure Features.Covers (φ : Features) (e : TypeExpr) : Prop where
  inter : e.isInter → φ.inter
  index : e.hasIndex → φ.index
  malformed : e.isMisplaced → φ.malformed

structure Decl.Within (φ : Features) (d : Decl) : Prop where
  types : ∀ e ∈ d.types, φ.Covers e
  exprs : ∀ e ∈ d.exprs, e.isMisplaced → φ.malformed
  index : d.hasIndex → φ.index
  malformed : d.isMisplaced → φ.malformed

theorem Decl.hasIndex_of_mem {d : Decl} {e : TypeExpr} (he : e ∈ d.types) (h : e.hasIndex) :
    d.hasIndex := by
  unfold Decl.hasIndex
  split
  · rfl
  · exact List.any_eq_true.mpr ⟨e, he, h⟩

namespace Program
variable {p : Program}

/-- The names are those that the program declares, and its parts are allowed for. -/
structure Within (φ : Features) (p : Program) : Prop where
  known : ∀ n, φ.known n = p.declares n
  declaration : ∀ d ∈ p.declarations, d.Within φ

theorem within_all (p : Program) : p.Within ⟨True, True, True, p.declares⟩ where
  known _ := rfl
  declaration _ _ := ⟨fun _ _ => ⟨fun _ => trivial, fun _ => trivial, fun _ => trivial⟩,
    fun _ _ _ => trivial, fun _ => trivial, fun _ => trivial⟩

/-- The features that a program can be seen to have. -/
def features (p : Program) : Features := ⟨p.hasInter, p.hasIndex, ¬p.wellFormed, p.declares⟩

theorem within_features (p : Program) : p.Within p.features := by
  refine ⟨fun _ => rfl, fun d hd => ?_⟩
  have hmalformed : ¬d.wellFormed → ¬p.wellFormed := fun hw h => hw (List.all_eq_true.mp h d hd)
  refine ⟨fun e he => ⟨fun hi => ?_, fun hi => ?_, fun hm => ?_⟩, fun e he hm => ?_, fun hi => ?_,
    fun hm => ?_⟩
  · exact List.any_eq_true.mpr ⟨d, hd, List.any_eq_true.mpr ⟨e, he, hi⟩⟩
  · exact List.any_eq_true.mpr ⟨d, hd, Decl.hasIndex_of_mem he hi⟩
  · refine hmalformed fun hw => ?_
    simp only [Decl.wellFormed, Bool.and_eq_true, List.all_eq_true] at hw
    simpa [hm] using hw.1.2 e he
  · refine hmalformed fun hw => ?_
    simp only [Decl.wellFormed, Bool.and_eq_true, List.all_eq_true] at hw
    simpa [hm] using hw.2 e he
  · exact List.any_eq_true.mpr ⟨d, hd, hi⟩
  · exact hmalformed fun hw => by simp [Decl.wellFormed, hm] at hw

theorem within_of_wellFormed (h : p.wellFormed) :
    p.Within ⟨p.hasInter, p.hasIndex, False, p.declares⟩ := by
  have hf := p.within_features
  rwa [features, eq_false (not_not_intro h)] at hf

end Program
end ShapeCheck
