import ShapeCheck.Span
import ShapeCheck.Tree.Kind
import ShapeCheck.Ty.Basic
import ShapeCheck.Value

/-!
Program trees. A node that stands where its kind has no place is kept as `misplaced`; it is
harmless until someone needs its meaning.
-/

namespace ShapeCheck

structure PropertySig (τ : Type) where
  name : String
  type : τ
  optional : Bool
  span : Option Span

structure IndexSig (τ : Type) where
  key : Prim
  value : τ
  span : Option Span

structure ParamExpr (τ : Type) where
  name : String
  type : τ
  optional : Bool
  rest : Bool

structure SignatureExpr (τ : Type) where
  params : List (ParamExpr τ)
  result : τ
  span : Option Span

inductive TypeExpr where
  | named (name : String) (span : Option Span)
  | prim (kind : Prim)
  | literal (value : Value) (span : Option Span)
  | array (element : TypeExpr)
  | tuple (elements : List TypeExpr)
  | object (properties : List (PropertySig TypeExpr)) (index : Option (IndexSig TypeExpr))
      (span : Option Span)
  | union (members : List TypeExpr)
  | inter (members : List TypeExpr)
  | func (signatures : List (SignatureExpr TypeExpr)) (receiver : Option TypeExpr)
  | ctor (signatures : List (SignatureExpr TypeExpr))
  | misplaced (node : NodeKind)

instance : Inhabited TypeExpr := ⟨.prim .never⟩

/-- A property given a value in an object literal. -/
structure Assignment (ε : Type) where
  name : String
  value : ε
  span : Option Span

inductive Expr where
  | literal (value : Value) (span : Option Span)
  | identifier (name : String) (span : Option Span)
  | object (assignments : List (Assignment Expr)) (span : Option Span)
  | array (elements : List Expr) (span : Option Span)
  | access (object : Expr) (name : String) (span : Option Span)
  /-- A call. A receiver that is given is bound; otherwise a property access binds its object. -/
  | call (callee : Expr) (args : List Expr) (receiver : Option Expr) (span : Option Span)
  | construct (callee : Expr) (args : List Expr) (span : Option Span)
  | misplaced (node : NodeKind)

instance : Inhabited Expr := ⟨.literal .null none⟩

namespace Expr

def span : Expr → Option Span
  | .literal _ s | .identifier _ s | .object _ s | .array _ s | .access _ _ s | .call _ _ _ s
  | .construct _ _ s => s
  | .misplaced _ => none

/-- The name by which messages call a callee. -/
def calleeName : Expr → String
  | .identifier name _ => name
  | .access owner name _ => owner.calleeName ++ "." ++ name
  | _ => "<expression>"

end Expr

inductive Binding where
  | letBinding | constBinding
deriving DecidableEq, Repr

def Binding.ofWord? : String → Option Binding
  | "let" => some .letBinding
  | "const" => some .constBinding
  | _ => none

inductive Decl where
  | typeAlias (name : String) (type : TypeExpr) (span : Option Span)
  | interface (name : String) (properties : List (PropertySig TypeExpr))
      (index : Option (IndexSig TypeExpr)) (bases : List (String × Option Span))
      (span : Option Span)
  | value (name : String) (binding : Binding) (declared : Option TypeExpr)
      (initializer : Option Expr) (span : Option Span)
  | func (name : String) (signatures : List (SignatureExpr TypeExpr)) (receiver : Option TypeExpr)
      (span : Option Span)
  | statement (expression : Expr)
  | misplaced (node : NodeKind)

instance : Inhabited Decl := ⟨.statement default⟩

structure Program where
  declarations : List Decl

end ShapeCheck
