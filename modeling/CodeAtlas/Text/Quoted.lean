import CodeAtlas.Text.Printable

/-! # Quoted text

A text in messages stands between single quotes, or double quotes if it holds a single quote and
no double one. The quote in use, the backslash and what is not printable are written as escapes.
-/

namespace CodeAtlas

namespace Quoted

/-- The last `width` hexadecimal digits of a number. -/
def hex : (width : Nat) → Nat → List Char
  | 0, _ => []
  | width + 1, n => hex width (n / 16) ++ [Nat.digitChar (n % 16)]

def mark (cs : List Char) : Char :=
  if cs.contains '\x27' && !cs.contains '\x22' then '\x22' else '\x27'

def escape (quote c : Char) : List Char :=
  if c == quote || c == '\\' then ['\\', c]
  else if c == '\n' then ['\\', 'n']
  else if c == '\r' then ['\\', 'r']
  else if c == '\t' then ['\\', 't']
  else if isPrintable c then [c]
  else if c.toNat < 0x100 then '\\' :: 'x' :: hex 2 c.toNat
  else if c.toNat < 0x10000 then '\\' :: 'u' :: hex 4 c.toNat
  else '\\' :: 'U' :: hex 8 c.toNat

end Quoted

def quoted (text : String) : String :=
  let cs := text.toList
  let quote := Quoted.mark cs
  String.ofList (quote :: cs.flatMap (Quoted.escape quote) ++ [quote])

end CodeAtlas
