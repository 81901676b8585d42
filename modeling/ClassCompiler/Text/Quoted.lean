import ClassCompiler.Text.Visible

/-!
# Quoted characters and texts

A character stands between single quotes and a text between double quotes.
The quote in use and the backslash are escaped, a few controls have a letter
of their own, and every other character that cannot be shown is written by
its code point in hexadecimal. The other kind of quote is not escaped.

Key definitions: `quoteChar`, `quote`.
-/

namespace ClassCompiler
namespace Text

/-- The lower case hexadecimal digits of a number, without leading zeros. -/
def hex (n : Nat) : String :=
  String.ofList (Nat.toDigits 16 n)

/-- A character as it stands inside quotes of the given kind. -/
def escapeChar (delimiter c : Char) : String :=
  if c = delimiter || c = '\\' then String.ofList ['\\', c]
  else if c.toNat = 0 then "\\0"
  else if c = '\t' then "\\t"
  else if c = '\r' then "\\r"
  else if c = '\n' then "\\n"
  else if isVisible c then String.ofList [c]
  else "\\u\x7b" ++ hex c.toNat ++ "\x7d"

/-- A character between single quotes. -/
def quoteChar (c : Char) : String :=
  "'" ++ escapeChar '\'' c ++ "'"

/-- A text between double quotes. -/
def quote (s : String) : String :=
  "\"" ++ String.join (s.toList.map (escapeChar '"')) ++ "\""

end Text
end ClassCompiler
