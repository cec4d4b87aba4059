import TileSched.Text.Combining
/-!
Text in double quotes, the way messages show names and paths. The quote, the backslash, tab,
line feed, carriage return and NUL are escaped by a backslash; a character that is hidden or
that extends the grapheme before it is written `\u{hex}` with lowercase digits; every other
character stands as itself.
-/
namespace TileSched.Text

def hexDigits (n : Nat) : String := String.ofList (Nat.toDigits 16 n)

def escapeChar (c : Char) : String :=
  if c = '\x00' then "\\0"
  else if c = '\t' then "\\t"
  else if c = '\r' then "\\r"
  else if c = '\n' then "\\n"
  else if c = '\\' then "\\\\"
  else if c = '"' then "\\\""
  else if extendsGrapheme c || !isPrintable c then "\\u\x7b" ++ hexDigits c.toNat ++ "\x7d"
  else c.toString

def quoted (s : String) : String := "\"" ++ String.join (s.toList.map escapeChar) ++ "\""

end TileSched.Text
