import ShapeCheck.Ty.Basic

/-!
The spelling of a type: its whole shape, without display names. It orders the members of unions and
intersections and appears in messages about malformed types.
-/

namespace ShapeCheck

/-- Parts between braces, or empty braces. -/
def braced : List String → String
  | [] => "\x7b\x7d"
  | parts => "\x7b " ++ "; ".intercalate parts ++ " \x7d"

/-- A parameter or property before its type. -/
def label (name : String) (optional rest : Bool) : String :=
  if rest then "..." ++ name ++ ": "
  else name ++ (if optional then "?" else "") ++ ": "

namespace Ty

mutual
def spelling : Ty → String
  | .prim k => k.word
  | .literal v => v.spelling
  | .array e => if e.isCompound then "(" ++ e.spelling ++ ")[]" else e.spelling ++ "[]"
  | .tuple es => "[" ++ ", ".intercalate (spellings es) ++ "]"
  | .object fs none _ => braced (fieldSpellings fs)
  | .object fs (some ⟨k, v⟩) _ =>
    braced (fieldSpellings fs ++ ["[key: " ++ k.word ++ "]: " ++ v.spelling])
  | .union ms => " | ".intercalate (spellings ms)
  | .inter ms => " & ".intercalate (spellings ms)
  | .func ss none => " / ".intercalate (signatureSpellings "" [] ss)
  | .func ss (some r) => " / ".intercalate (signatureSpellings "" ["this: " ++ r.spelling] ss)
  | .ctor ss => " / ".intercalate (signatureSpellings "new " [] ss)
  | .ref n => n

def spellings : List Ty → List String
  | [] => []
  | t :: ts => t.spelling :: spellings ts

def fieldSpellings : List (Field Ty) → List String
  | [] => []
  | ⟨name, t, optional⟩ :: fs => (label name optional false ++ t.spelling) :: fieldSpellings fs

def paramSpellings : List (Param Ty) → List String
  | [] => []
  | ⟨name, t, optional, rest⟩ :: ps => (label name optional rest ++ t.spelling) :: paramSpellings ps

/-- Signatures with a common word in front and common first parameters. -/
def signatureSpellings (front : String) (leading : List String) :
    List (Signature Ty) → List String
  | [] => []
  | ⟨ps, r⟩ :: ss =>
    (front ++ "(" ++ ", ".intercalate (leading ++ paramSpellings ps) ++ ") => " ++ r.spelling) ::
      signatureSpellings front leading ss
end

end Ty

def Field.spelling (f : Field Ty) : String := label f.name f.optional false ++ f.type.spelling

def Param.spelling (p : Param Ty) : String := label p.name p.optional p.rest ++ p.type.spelling

/-- A signature as a function with the given receiver writes it. -/
def Signature.spelling (s : Signature Ty) (receiver : Option Ty) : String :=
  let leading := (receiver.map fun r => "this: " ++ r.spelling).toList
  "(" ++ ", ".intercalate (leading ++ s.params.map (·.spelling)) ++ ") => " ++ s.result.spelling

end ShapeCheck
