import ShapeCheck.Fault
import ShapeCheck.Text.Order

/-! Parts of types built from descriptions that may be malformed. -/

namespace ShapeCheck

/-- The literal of a value, of whichever kind the value has. -/
def Literal.ofValue : Value → Except Defect Literal
  | .bool b => .ok (.bool b)
  | .number n => .ok (.number n)
  | .text s => .ok (.text s)
  | v => .error (.notLiteral v)

/-- The literal of a value that must be of the given kind. -/
def Literal.ofKind (kind : Prim) (value : Value) : Except Defect Literal :=
  match kind, value with
  | .boolean, .bool b => .ok (.bool b)
  | .number, .number n => .ok (.number n)
  | .string, .text s => .ok (.text s)
  | .boolean, v | .number, v | .string, v => .error (.literalValue v kind)
  | _, _ => .error (.literalKind kind)

def Key.ofPrim : Prim → Except Defect Key
  | .string => .ok .string
  | .number => .ok .number
  | k => .error (.indexKey k)

namespace Signature
variable {τ : Type}

/-- Checks parameters from the left: optional ones after required ones, a rest parameter last
and not optional. -/
def checkParams (seenOptional : Bool) : List (Param τ) → Except Defect Unit
  | [] => .ok ()
  | p :: ps =>
    if p.rest then
      if !ps.isEmpty then .error (.restNotLast p.name)
      else if p.optional then .error (.restOptional p.name)
      else .ok ()
    else if p.optional then checkParams true ps
    else if seenOptional then .error (.requiredAfterOptional p.name)
    else checkParams false ps

def ofParts (params : List (Param τ)) (result : τ) : Except Defect (Signature τ) :=
  match checkParams false params with
  | .ok () => .ok ⟨params, result⟩
  | .error d => .error d

/-- The rest parameter, which only the last one can be. -/
def rest? (s : Signature τ) : Option (Param τ) :=
  match s.params.getLast? with
  | some p => if p.rest then some p else none
  | none => none

/-- The parameters other than the rest parameter. -/
def positional (s : Signature τ) : List (Param τ) :=
  match s.rest? with
  | some _ => s.params.dropLast
  | none => s.params

/-- The least number of arguments. -/
def minArity (s : Signature τ) : Nat := s.positional.countP fun p => !p.optional

/-- The greatest number of arguments, if there is one. -/
def maxArity (s : Signature τ) : Option Nat :=
  match s.rest? with
  | some _ => none
  | none => some s.params.length

end Signature

namespace Ty

def funcOf (signatures : List (Signature Ty)) (receiver : Option Ty) : Except Defect Ty :=
  if signatures.isEmpty then .error .noCallSignature else .ok (.func signatures receiver)

def ctorOf (signatures : List (Signature Ty)) : Except Defect Ty :=
  if signatures.isEmpty then .error .noConstructSignature else .ok (.ctor signatures)

end Ty

namespace Field

/-- Stores a type under a name: in the place the name has, or at the end. -/
def put (f : Field Ty) : List (Field Ty) → List (Field Ty)
  | [] => [f]
  | g :: gs => if g.name = f.name then f :: gs else g :: put f gs

def find? (fs : List (Field Ty)) (name : String) : Option (Field Ty) :=
  fs.find? (·.name = name)

/-- The first name that has been seen before. -/
def repeated? (seen : List String) : List (Field Ty) → Option String
  | [] => none
  | f :: fs => if seen.contains f.name then some f.name else repeated? (f.name :: seen) fs

/-- The first name that stands a second time. -/
def duplicate? (fs : List (Field Ty)) : Option String := repeated? [] fs

/-- Fields from names and types, where the last type of a name counts, and from the names of the
optional ones. -/
def ofTypes (types : List (String × Ty)) (optional : List String) :
    Except Defect (List (Field Ty)) :=
  let fields := types.foldl (fun fs (n, t) => put ⟨n, t, optional.contains n⟩ fs) []
  let stray := optional.filter fun n => (find? fields n).isNone
  if stray.isEmpty then .ok fields else .error (.strayOptional (Text.sortOn id stray.eraseDups))

end Field
end ShapeCheck
