import ShapeCheck.Tree.Kind
import ShapeCheck.Ty.Spelling
import ShapeCheck.Value

/-! Why a computation stops: a malformed description, or a step that cannot be taken. -/

namespace ShapeCheck

/-- A type or a name described in a way that makes no type. -/
inductive Defect where
  | notLiteral (value : Value)
  | literalKind (kind : Prim)
  | literalValue (value : Value) (kind : Prim)
  | indexKey (kind : Prim)
  | duplicateField (name : String)
  | indexMisfit (field : String) (type value : Ty)
  | strayOptional (names : List String)
  | thinUnion
  | thinIntersection
  | restNotLast (param : String)
  | restOptional (param : String)
  | requiredAfterOptional (param : String)
  | noCallSignature
  | noConstructSignature
  | alreadyDefined (name : String)
deriving Repr

def Defect.message : Defect → String
  | .notLiteral v => "cannot make a literal type from " ++ v.shown
  | .literalKind k => "literal types must be string, number or boolean, not " ++ k.word
  | .literalValue v k => "value " ++ v.shown ++ " is not a " ++ k.word ++ " literal"
  | .indexKey k => "index signature keys must be string or number, not " ++ k.word
  | .duplicateField n => "duplicate property '" ++ n ++ "'"
  | .indexMisfit n t v =>
    "property '" ++ n ++ "' of type " ++ t.spelling ++ " is not assignable to index signature type "
      ++ v.spelling
  | .strayOptional ns => "optional names not among properties: " ++ ", ".intercalate ns
  | .thinUnion => "a union needs at least two distinct members"
  | .thinIntersection => "an intersection needs at least two distinct members"
  | .restNotLast n => "rest parameter '" ++ n ++ "' must be last"
  | .restOptional n => "rest parameter '" ++ n ++ "' cannot be optional"
  | .requiredAfterOptional n => "required parameter '" ++ n ++ "' follows an optional one"
  | .noCallSignature => "a function type needs at least one signature"
  | .noConstructSignature => "a constructor type needs at least one signature"
  | .alreadyDefined n => "type name '" ++ n ++ "' is already defined"

/-- Closed sets of words that descriptions draw from. -/
inductive Vocabulary where
  | primitive | diagnostic | binding
deriving DecidableEq, Repr

def Vocabulary.title : Vocabulary → String
  | .primitive => "PrimitiveKind"
  | .diagnostic => "DiagnosticKind"
  | .binding => "BindingKind"

/-- The place a tree node stands in. -/
inductive Role where
  | declaration | typeExpression | expression
deriving DecidableEq, Repr

def Role.title : Role → String
  | .declaration => "a declaration"
  | .typeExpression => "a type expression"
  | .expression => "an expression"

/-- What stops a computation. -/
inductive Fault where
  | defect (defect : Defect)
  | unknownWord (vocabulary : Vocabulary) (value : Value)
  /-- The definition of the name stopped earlier, so it is marked as under way and is not. -/
  | abandoned (name : String)
  | misplaced (role : Role) (node : NodeKind)
  /-- The given recursion depth did not suffice. -/
  | depthExceeded
deriving Repr

instance : Inhabited Fault := ⟨.depthExceeded⟩

def Fault.message : Fault → String
  | .defect d => d.message
  | .unknownWord vocabulary value => value.shown ++ " is not a valid " ++ vocabulary.title
  | .abandoned name => Text.quoted name ++ " is not in list"
  | .misplaced role node => "not " ++ role.title ++ ": " ++ node.title
  | .depthExceeded => "maximum recursion depth exceeded"

end ShapeCheck
