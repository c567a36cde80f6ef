import ShapeCheck.Text.Order
import ShapeCheck.Ty.Spelling

/-! The text by which messages show a type: named objects by name, members in the order of their
text. -/

namespace ShapeCheck

/-- How a signature separates its result: an arrow alone, a colon inside an overload list. -/
inductive SignatureForm where
  | arrow | member
deriving DecidableEq, Repr

def SignatureForm.separator : SignatureForm → String
  | .arrow => " => "
  | .member => ": "

/-- One signature stands alone, several stand in a list. -/
def formFor {α : Type} : List α → SignatureForm
  | [_] => .arrow
  | _ => .member

/-- Signatures as one type: alone, or between braces. -/
def joinSignatures : List String → String
  | [s] => s
  | ss => "\x7b " ++ "; ".intercalate ss ++ " \x7d"

/-- The name an object is shown by; an empty name counts as none. -/
def shownName : Option String → Option String
  | some "" => none
  | name => name

namespace Ty

/-- The text of an element or member, in parentheses where it would run into its surroundings. -/
def inParens (t : Ty) (text : String) : String :=
  if t.isCompound then "(" ++ text ++ ")" else text

mutual
def display : Ty → String
  | .prim k => k.word
  | .literal v => v.spelling
  | .array e => inParens e e.display ++ "[]"
  | .tuple es => "[" ++ ", ".intercalate (displays es) ++ "]"
  | .object fs none name => (shownName name).getD (braced (fieldDisplays fs))
  | .object fs (some ⟨k, v⟩) name =>
    (shownName name).getD (braced (fieldDisplays fs ++ ["[key: " ++ k.word ++ "]: " ++ v.display]))
  | .union ms => " | ".intercalate ((Text.sortByKey (memberDisplays ms)).map Prod.snd)
  | .inter ms => " & ".intercalate ((Text.sortByKey (memberDisplays ms)).map Prod.snd)
  | .func ss none => joinSignatures (signatureDisplays "" (formFor ss) [] ss)
  | .func ss (some r) =>
    joinSignatures (signatureDisplays "" (formFor ss) ["this: " ++ r.display] ss)
  | .ctor ss => joinSignatures (signatureDisplays "new " (formFor ss) [] ss)
  | .ref n => n

def displays : List Ty → List String
  | [] => []
  | t :: ts => t.display :: displays ts

/-- Each member's text, which orders it, and how it is written among members. -/
def memberDisplays : List Ty → List (String × String)
  | [] => []
  | t :: ts => (t.display, inParens t t.display) :: memberDisplays ts

def fieldDisplays : List (Field Ty) → List String
  | [] => []
  | ⟨name, t, optional⟩ :: fs => (label name optional false ++ t.display) :: fieldDisplays fs

def paramDisplays : List (Param Ty) → List String
  | [] => []
  | ⟨name, t, optional, rest⟩ :: ps => (label name optional rest ++ t.display) :: paramDisplays ps

def signatureDisplays (front : String) (form : SignatureForm) (leading : List String) :
    List (Signature Ty) → List String
  | [] => []
  | ⟨ps, r⟩ :: ss =>
    (front ++ "(" ++ ", ".intercalate (leading ++ paramDisplays ps) ++ ")" ++ form.separator
      ++ r.display) :: signatureDisplays front form leading ss
end

/-- The display text, with an object's own name put aside. -/
def displayExpanded : Ty → String
  | .object fs index _ => display (.object fs index none)
  | t => t.display

end Ty

/-- A signature as a function with the given receiver shows it. -/
def Signature.display (s : Signature Ty) (receiver : Option Ty) (form : SignatureForm) : String :=
  let leading := (receiver.map fun r => "this: " ++ r.display).toList
  let params := s.params.map fun p => label p.name p.optional p.rest ++ p.type.display
  "(" ++ ", ".intercalate (leading ++ params) ++ ")" ++ form.separator ++ s.result.display

end ShapeCheck
