import ShapeCheck.Number.Basic

/-!
The shapes of types.

Members of a union or intersection are kept in the order of their spelling and without
repetition, so the stored list is the order in which they are visited and shown.
-/

namespace ShapeCheck

/-- Primitive types, the top `any` and the bottom `never` among them. -/
inductive Prim where
  | string | number | boolean | undefined | null | any | never | void
deriving DecidableEq, Repr

namespace Prim

def word : Prim → String
  | .string => "string"
  | .number => "number"
  | .boolean => "boolean"
  | .undefined => "undefined"
  | .null => "null"
  | .any => "any"
  | .never => "never"
  | .void => "void"

def all : List Prim := [.string, .number, .boolean, .undefined, .null, .any, .never, .void]

def ofWord? (w : String) : Option Prim := all.find? (·.word = w)

end Prim

/-- The single value a literal type admits. -/
inductive Literal where
  | text (value : String)
  | number (value : Number)
  | bool (value : Bool)
deriving DecidableEq, Repr

namespace Literal

/-- The primitive a literal widens to. -/
def base : Literal → Prim
  | .text _ => .string
  | .number _ => .number
  | .bool _ => .boolean

def same : Literal → Literal → Bool
  | .text a, .text b => a == b
  | .number a, .number b => a.same b
  | .bool a, .bool b => a == b
  | _, _ => false

/-- The value itself: a text without marks, a number in its shortest form. -/
def content : Literal → String
  | .text s => s
  | .number n => n.text
  | .bool b => if b then "true" else "false"

def spelling : Literal → String
  | .text s => "\"" ++ s ++ "\""
  | v => v.content

end Literal

/-- The keys an index signature ranges over. -/
inductive Key where
  | string | number
deriving DecidableEq, Repr

def Key.prim : Key → Prim
  | .string => .string
  | .number => .number

def Key.word (k : Key) : String := k.prim.word

/-- A named property of an object. -/
structure Field (τ : Type) where
  name : String
  type : τ
  optional : Bool
deriving Repr

/-- The type every property must fit, whatever its name. -/
structure Index (τ : Type) where
  key : Key
  value : τ
deriving Repr

/-- A parameter. The type of a rest parameter is the array its arguments are collected into. -/
structure Param (τ : Type) where
  name : String
  type : τ
  optional : Bool
  rest : Bool
deriving Repr

structure Signature (τ : Type) where
  params : List (Param τ)
  result : τ
deriving Repr

inductive Ty where
  | prim (kind : Prim)
  | literal (value : Literal)
  | array (element : Ty)
  | tuple (elements : List Ty)
  | object (fields : List (Field Ty)) (index : Option (Index Ty)) (name : Option String)
  | union (members : List Ty)
  | inter (members : List Ty)
  | func (signatures : List (Signature Ty)) (receiver : Option Ty)
  | ctor (signatures : List (Signature Ty))
  | ref (name : String)
deriving Repr

/-- The types directly inside a signature: those of its parameters, then its result. -/
def Signature.parts (s : Signature Ty) : List Ty :=
  s.params.map (·.type) ++ [s.result]

namespace Ty

instance : Inhabited Ty := ⟨.prim .never⟩

abbrev any : Ty := .prim .any
abbrev never : Ty := .prim .never
abbrev undefined : Ty := .prim .undefined
abbrev void : Ty := .prim .void

def isAny : Ty → Bool
  | .prim .any => true
  | _ => false

def isNever : Ty → Bool
  | .prim .never => true
  | _ => false

/-- Types that are written in parentheses where a member or an element stands. -/
def isCompound : Ty → Bool
  | .union _ | .inter _ | .func _ _ | .ctor _ => true
  | _ => false

/-- The name an object goes by; it is no part of the shape. -/
def displayName : Ty → Option String
  | .object _ _ name => name
  | _ => none

/-- The types directly inside a type. -/
def children : Ty → List Ty
  | .prim _ | .literal _ | .ref _ => []
  | .array e => [e]
  | .tuple es => es
  | .object fs index _ => fs.map (·.type) ++ (index.map (·.value)).toList
  | .union ms | .inter ms => ms
  | .func ss receiver => receiver.toList ++ ss.flatMap (·.parts)
  | .ctor ss => ss.flatMap (·.parts)

mutual
/-- The number of types a type is made of, itself included. -/
def size : Ty → Nat
  | .prim _ | .literal _ | .ref _ => 1
  | .array e => e.size + 1
  | .tuple es => sizeList es + 1
  | .object fs none _ => sizeFields fs + 1
  | .object fs (some ⟨_, v⟩) _ => sizeFields fs + v.size + 1
  | .union ms | .inter ms => sizeList ms + 1
  | .func ss none => sizeSignatures ss + 1
  | .func ss (some r) => r.size + sizeSignatures ss + 1
  | .ctor ss => sizeSignatures ss + 1

def sizeList : List Ty → Nat
  | [] => 0
  | t :: ts => t.size + sizeList ts

def sizeFields : List (Field Ty) → Nat
  | [] => 0
  | ⟨_, t, _⟩ :: fs => t.size + sizeFields fs

def sizeParams : List (Param Ty) → Nat
  | [] => 0
  | ⟨_, t, _, _⟩ :: ps => t.size + sizeParams ps

def sizeSignatures : List (Signature Ty) → Nat
  | [] => 0
  | ⟨ps, r⟩ :: ss => sizeParams ps + r.size + sizeSignatures ss
end

end Ty
end ShapeCheck
