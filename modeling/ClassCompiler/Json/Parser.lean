import ClassCompiler.Json.Number

/-!
# Reading JSON text

A text is one value between white space. A text in quotes holds no control
character; an escaped surrogate in it stands for something only as one half of
a pair. `parse?` reads every value that is well formed, at any depth, and
`parseReadable?` only those of which every part can be read.

The readers take the characters left to read and return those that remain. The
two that call each other count down a bound on the characters left, which
`parse?` takes from the length of the text: every call reads at least one
character before the next.

Key definitions: `Json.Piece`, `Json.scanString`, `Json.parse?`, `Json.parseReadable?`.
-/

namespace ClassCompiler
namespace Json

def isSpace (c : Char) : Bool :=
  c = ' ' || c = '\t' || c = '\n' || c = '\r'

def skipSpace (cs : List Char) : List Char :=
  cs.dropWhile isSpace

def hexDigit? (c : Char) : Option Nat :=
  if c.isDigit then some (c.toNat - '0'.toNat)
  else if 'a' ≤ c && c ≤ 'f' then some (c.toNat - 'a'.toNat + 10)
  else if 'A' ≤ c && c ≤ 'F' then some (c.toNat - 'A'.toNat + 10)
  else none

/-- The number written by four hexadecimal digits. -/
def hexUnit? (a b c d : Char) : Option Nat := do
  return (((← hexDigit? a) * 16 + (← hexDigit? b)) * 16 + (← hexDigit? c)) * 16 + (← hexDigit? d)

/-- The character that two halves of a surrogate pair stand for. -/
def pairChar (high low : Nat) : Char :=
  Char.ofNat (0x10000 + (high - 0xD800) * 0x400 + (low - 0xDC00))

/-- The character of an escape that is one letter after the backslash. -/
def letterEscape? (c : Char) : Option Char :=
  match c with
  | '"' => some '"'
  | '\\' => some '\\'
  | '/' => some '/'
  | 'b' => some (Char.ofNat 8)
  | 'f' => some (Char.ofNat 12)
  | 'n' => some '\n'
  | 'r' => some '\r'
  | 't' => some '\t'
  | _ => none

/-- A piece of a text in quotes: a character, or an escaped half of a
surrogate pair. -/
inductive Piece where
  | char (c : Char)
  | half (unit : Nat)

namespace Piece

/-- What an escape by number stands for. -/
def ofUnit (unit : Nat) : Piece :=
  if 0xD800 ≤ unit && unit < 0xE000 then .half unit else .char (Char.ofNat unit)

/-- The text that pieces make up. Every half has to be part of a pair. -/
def join? : List Piece → Option (List Char)
  | [] => some []
  | .char c :: ps => (join? ps).map (c :: ·)
  | .half high :: .half low :: ps =>
    if high < 0xDC00 && 0xDC00 ≤ low then (join? ps).map (pairChar high low :: ·) else none
  | .half _ :: _ => none

end Piece

/-- The pieces up to the closing quote, and what follows it. -/
def scanPieces : List Char → Option (List Piece × List Char)
  | [] => none
  | '"' :: rest => some ([], rest)
  | '\\' :: 'u' :: a :: b :: c :: d :: rest => do
    let unit ← hexUnit? a b c d
    let (ps, rest) ← scanPieces rest
    return (.ofUnit unit :: ps, rest)
  | '\\' :: c :: rest => do
    let e ← letterEscape? c
    let (ps, rest) ← scanPieces rest
    return (.char e :: ps, rest)
  | c :: rest =>
    if c.toNat < 0x20 || c = '\\' then none
    else do
      let (ps, rest) ← scanPieces rest
      return (.char c :: ps, rest)

/-- The text up to the closing quote, and what follows it. There is no text if
it holds one half of a surrogate pair alone. -/
def scanString (cs : List Char) : Option (Option (List Char) × List Char) := do
  let (ps, rest) ← scanPieces cs
  return (Piece.join? ps, rest)

/-- What was read of a text when `rest` is left, as it stands there. -/
def consumed (cs rest : List Char) : String :=
  String.ofList (cs.take (cs.length - rest.length))

mutual

/-- The value at the start of a text. -/
def scanValue : Nat → List Char → Option (Json × List Char)
  | 0, _ => none
  | bound + 1, cs =>
    match cs with
    | 'n' :: 'u' :: 'l' :: 'l' :: rest => some (.null, rest)
    | 't' :: 'r' :: 'u' :: 'e' :: rest => some (.bool true, rest)
    | 'f' :: 'a' :: 'l' :: 's' :: 'e' :: rest => some (.bool false, rest)
    | '"' :: rest => do
      match ← scanString rest with
      | (some s, rest) => return (.str (String.ofList s), rest)
      | (none, rest) => return (.unreadable (consumed cs rest), rest)
    | '[' :: rest => do
      match skipSpace rest with
      | ']' :: rest => return (.arr [], rest)
      | rest =>
        let (items, rest) ← scanItems bound rest
        return (.arr items, rest)
    | '\x7b' :: rest => do
      match skipSpace rest with
      | '\x7d' :: rest => return (.obj [], rest)
      | rest =>
        match ← scanMembers bound rest with
        | (some members, rest) => return (.obj members, rest)
        | (none, rest) => return (.unreadable (consumed cs rest), rest)
    | cs => do
      let (n, rest) ← Numeral.scan cs
      return (n.value, rest)

/-- The items of a list up to its closing bracket. -/
def scanItems : Nat → List Char → Option (List Json × List Char)
  | 0, _ => none
  | bound + 1, cs => do
    let (j, rest) ← scanValue bound cs
    match skipSpace rest with
    | ']' :: rest => return ([j], rest)
    | ',' :: rest =>
      let (js, rest) ← scanItems bound (skipSpace rest)
      return (j :: js, rest)
    | _ => none

/-- The members of an object up to its closing brace. There are none if a key
holds one half of a surrogate pair. -/
def scanMembers : Nat → List Char → Option (Option (List (String × Json)) × List Char)
  | 0, _ => none
  | bound + 1, cs =>
    match cs with
    | '"' :: rest => do
      let (key, rest) ← scanString rest
      match skipSpace rest with
      | ':' :: rest =>
        let (j, rest) ← scanValue bound (skipSpace rest)
        let member := key.map fun k => (String.ofList k, j)
        match skipSpace rest with
        | '\x7d' :: rest => return (member.map ([·]), rest)
        | ',' :: rest =>
          let (ms, rest) ← scanMembers bound (skipSpace rest)
          return (member.bind fun m => ms.map (m :: ·), rest)
        | _ => none
      | _ => none
    | _ => none

end

/-- The value that a text writes, whether it can be read or not. -/
def parse? (text : String) : Option Json := do
  let cs := text.toList
  let (j, rest) ← scanValue (cs.length + 1) (skipSpace cs)
  if (skipSpace rest).isEmpty then some j else none

/-- The value that a text writes, if all of it can be read and if lists and
objects nest at most `nesting` deep, where that is given. -/
def parseReadable? (nesting : Option Nat) (text : String) : Option Json :=
  (parse? text).filter fun j => j.isReadable && nesting.all (j.depth ≤ ·)

end Json
end ClassCompiler
