import LazyDispatch.Text.Combining
import LazyDispatch.Text.Unprintable

/-!
# Quoted text

Strings inside messages and displayed expressions stand between double quotes.
The quote, the backslash and the common controls have two-character escapes;
characters that would be invisible or would join the text before them are
written by their code point.
-/

namespace LazyDispatch.Text

/-- A character by its code point in hexadecimal. -/
def codePointEscape (c : Char) : String :=
  "\\u\x7b" ++ String.ofList (Nat.toDigits 16 c.toNat) ++ "\x7d"

/-- How one character is written between double quotes. -/
def escape (c : Char) : String :=
  if c = '\x00' then "\\0"
  else if c = '\t' then "\\t"
  else if c = '\r' then "\\r"
  else if c = '\n' then "\\n"
  else if c = '\\' then "\\\\"
  else if c = '"' then "\\\""
  else if ' ' ≤ c ∧ c ≤ '~' then c.toString
  else if isCombining c || isUnprintable c then codePointEscape c
  else c.toString

/-- A string between double quotes. -/
def quote (s : String) : String :=
  "\"" ++ String.join (s.toList.map escape) ++ "\""

end LazyDispatch.Text
