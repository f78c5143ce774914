import Parvar.Text.Escaped

/-! Text between double quotes, with escapes for what could not be read back otherwise. -/

namespace Parvar.Text

-- The code point in lower-case hexadecimal, in braces.
def codeEscape (c : Char) : String :=
  "\\u\x7b" ++ String.ofList (Nat.toDigits 16 c.toNat) ++ "\x7d"

def quotedChar (c : Char) : String :=
  if c = '"' then "\\\""
  else if c = '\\' then "\\\\"
  else if c = '\n' then "\\n"
  else if c = '\r' then "\\r"
  else if c = '\t' then "\\t"
  else if c.toNat = 0 then "\\0"
  else if isEscaped c then codeEscape c
  else c.toString

def quoted (s : String) : String :=
  s.toList.foldl (fun out c => out ++ quotedChar c) "\"" ++ "\""

end Parvar.Text
