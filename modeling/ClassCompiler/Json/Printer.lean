import ClassCompiler.Json.Basic
import ClassCompiler.Text.Quoted

/-!
# Writing JSON text

Two forms of the same value: on one line without spaces, and spread over lines
with two spaces for each level, where an empty list or object stays closed.

Key definitions: `Json.compact`, `Json.pretty`.
-/

namespace ClassCompiler
namespace Json

/-- Two hexadecimal digits. -/
def hexPair (n : Nat) : String :=
  if n < 16 then "0" ++ Text.hex n else Text.hex n

def escape (c : Char) : String :=
  if c = '"' then "\\\""
  else if c = '\\' then "\\\\"
  else if c = '\n' then "\\n"
  else if c = '\r' then "\\r"
  else if c = '\t' then "\\t"
  else if c.toNat = 8 then "\\b"
  else if c.toNat = 12 then "\\f"
  else if c.toNat < 0x20 then "\\u00" ++ hexPair c.toNat
  else String.ofList [c]

def quoted (s : String) : String :=
  "\"" ++ String.join (s.toList.map escape) ++ "\""

mutual

/-- The value on one line. -/
def compact : Json → String
  | .null => "null"
  | .bool b => if b then "true" else "false"
  | .int n => toString n
  | .decimal s => s
  | .unreadable s => s
  | .str s => quoted s
  | .arr items => "[" ++ compactItems items ++ "]"
  | .obj members => "\x7b" ++ compactMembers members ++ "\x7d"

def compactItems : List Json → String
  | [] => ""
  | [j] => compact j
  | j :: js => compact j ++ "," ++ compactItems js

def compactMembers : List (String × Json) → String
  | [] => ""
  | [(k, j)] => quoted k ++ ":" ++ compact j
  | (k, j) :: ms => quoted k ++ ":" ++ compact j ++ "," ++ compactMembers ms

end

/-- The start of a line at a level. -/
def lineStart (level : Nat) : String :=
  "\n" ++ String.ofList (List.replicate (2 * level) ' ')

mutual

/-- The value spread over lines, inside `level` lists and objects. -/
def prettyAt (level : Nat) : Json → String
  | .arr [] => "[]"
  | .obj [] => "\x7b\x7d"
  | .arr items => "[" ++ prettyItems (level + 1) items ++ lineStart level ++ "]"
  | .obj members => "\x7b" ++ prettyMembers (level + 1) members ++ lineStart level ++ "\x7d"
  | .null => "null"
  | .bool b => if b then "true" else "false"
  | .int n => toString n
  | .decimal s => s
  | .unreadable s => s
  | .str s => quoted s

def prettyItems (level : Nat) : List Json → String
  | [] => ""
  | [j] => lineStart level ++ prettyAt level j
  | j :: js => lineStart level ++ prettyAt level j ++ "," ++ prettyItems level js

def prettyMembers (level : Nat) : List (String × Json) → String
  | [] => ""
  | [(k, j)] => lineStart level ++ quoted k ++ ": " ++ prettyAt level j
  | (k, j) :: ms =>
    lineStart level ++ quoted k ++ ": " ++ prettyAt level j ++ "," ++ prettyMembers level ms

end

/-- The value spread over lines. -/
def pretty (j : Json) : String :=
  prettyAt 0 j

end Json
end ClassCompiler
