/-! Quoted text: the mark is chosen by what the text holds, so that most texts need no escape. -/

namespace ShapeCheck.Text

/-- The single mark, unless the text holds a single mark and no double one. -/
def quoteMark (cs : List Char) : Char :=
  if cs.contains '\x27' && !cs.contains '\x22' then '\x22' else '\x27'

/-- Two lowercase hexadecimal digits. -/
def hexPair (n : Nat) : List Char :=
  [Nat.digitChar (n / 16 % 16), Nat.digitChar (n % 16)]

/-- One character inside marks. Backslash, the mark itself and control characters are escaped. -/
def escape (mark c : Char) : List Char :=
  if c = '\x5c' || c = mark then ['\x5c', c]
  else if c = '\n' then ['\x5c', 'n']
  else if c = '\r' then ['\x5c', 'r']
  else if c = '\t' then ['\x5c', 't']
  else if c.toNat < 32 || c.toNat = 127 then '\x5c' :: 'x' :: hexPair c.toNat
  else [c]

/-- A text between quote marks. -/
def quoted (s : String) : String :=
  let mark := quoteMark s.toList
  String.ofList (mark :: s.toList.flatMap (escape mark) ++ [mark])

end ShapeCheck.Text
