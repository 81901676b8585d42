import ClassCompiler.Json.Basic

/-!
# Numbers in JSON text

A number is a sign, digits without a leading zero, and perhaps a fraction and
an exponent. Without fraction and exponent it is an integer if it fits in 64
bits; a negative zero is not one. A number too large for a double stands for
nothing, however it is written. What is too large is decided in the arithmetic
of doubles, so close to the bound it depends on how the number is written.

Key definitions: `Json.Numeral`, `Json.Numeral.scan`, `Json.Numeral.scaled`,
`Json.Numeral.overflows`, `Json.Numeral.value`.
-/

namespace ClassCompiler
namespace Json

/-- The parts of a number as they stand in the text. The exponent is absent if
none is written. -/
structure Numeral where
  negative : Bool
  whole : List Char
  fraction : Option (List Char)
  exponent : Option (Option Char × List Char)

namespace Numeral

/-- The number that a decimal digit denotes. -/
def digit (d : Char) : Nat := d.toNat - '0'.toNat

/-- The number that a row of decimal digits denotes. -/
def ofDigits (ds : List Char) : Nat :=
  ds.foldl (fun n d => n * 10 + digit d) 0

/-- The digits at the start of a text, and the rest. -/
def digits (cs : List Char) : List Char × List Char :=
  (cs.takeWhile Char.isDigit, cs.dropWhile Char.isDigit)

/-- The digits before the point: one zero, or digits that do not start with one. -/
def scanWhole (cs : List Char) : Option (List Char × List Char) :=
  match cs with
  | '0' :: rest => some (['0'], rest)
  | _ =>
    match digits cs with
    | ([], _) => none
    | (ds, rest) => some (ds, rest)

/-- A point and at least one digit, if there is a point. -/
def scanFraction (cs : List Char) : Option (Option (List Char) × List Char) :=
  match cs with
  | '.' :: rest =>
    match digits rest with
    | ([], _) => none
    | (ds, rest) => some (some ds, rest)
  | _ => some (none, cs)

/-- The sign at the start of a text. -/
def scanSign : List Char → Option Char × List Char
  | '+' :: rest => (some '+', rest)
  | '-' :: rest => (some '-', rest)
  | cs => (none, cs)

/-- A mark, perhaps a sign, and at least one digit, if there is a mark. -/
def scanExponent (cs : List Char) : Option (Option (Option Char × List Char) × List Char) :=
  match cs with
  | c :: rest =>
    if c = 'e' || c = 'E' then
      match scanSign rest with
      | (sign, rest) =>
        match digits rest with
        | ([], _) => none
        | (ds, rest) => some (some (sign, ds), rest)
    else some (none, cs)
  | [] => some (none, [])

/-- The number at the start of a text, and the rest. -/
def scan (cs : List Char) : Option (Numeral × List Char) := do
  let (negative, cs) := match cs with
    | '-' :: rest => (true, rest)
    | _ => (false, cs)
  let (whole, cs) ← scanWhole cs
  let (fraction, cs) ← scanFraction cs
  let (exponent, cs) ← scanExponent cs
  return ({ negative, whole, fraction, exponent }, cs)

/-- The number as it was written. -/
def spelling (n : Numeral) : String :=
  (if n.negative then "-" else "") ++ String.ofList n.whole ++
    (match n.fraction with
      | none => ""
      | some ds => "." ++ String.ofList ds) ++
    (match n.exponent with
      | none => ""
      | some (none, ds) => "e" ++ String.ofList ds
      | some (some sign, ds) => "e" ++ String.ofList (sign :: ds))

/-- The exponent that is written, zero if there is none. -/
def writtenExponent (n : Numeral) : Int :=
  match n.exponent with
  | none => 0
  | some (some '-', ds) => -(ofDigits ds : Int)
  | some (_, ds) => ofDigits ds

/-- Append digits to a number as long as it fits in 64 bits. The answer is the
number, and how many digits were left over. -/
def append (m : Nat) : List Char → Nat × Nat
  | [] => (m, 0)
  | d :: ds =>
    if m * 10 + digit d < 0x10000000000000000 then append (m * 10 + digit d) ds
    else (m, ds.length + 1)

/-- A number of 64 bits and the power of ten to multiply it with. Digits that
do not fit count as zeros before the point and are dropped after it. -/
def scaled (n : Numeral) : Nat × Int :=
  let fraction := n.fraction.getD []
  match append 0 n.whole with
  | (m, zeros) =>
    match append m fraction with
    | (m, dropped) => (m, n.writtenExponent + zeros - (fraction.length - dropped : Nat))

/-- The number with at most 53 binary digits that is nearest to a number. Of
two the even one is taken. -/
def nearestDouble (n : Nat) : Nat :=
  let unit := Nat.pow 2 (n.log2 - 52)
  let quotient := n / unit
  let remainder := n % unit
  if 2 * remainder < unit || (2 * remainder = unit && quotient % 2 = 0) then quotient * unit
  else (quotient + 1) * unit

/-- The least number that rounds to no finite double. -/
def doubleBound : Nat := Nat.pow 2 1024 - Nat.pow 2 970

/-- Whether the number is too large for a double. It is computed as a product
of doubles: its digits and the power of ten are rounded first. -/
def overflows (n : Numeral) : Bool :=
  match n.scaled with
  | (m, scale) =>
    if m = 0 || scale < 0 then false
    else if 308 < scale then true
    else doubleBound ≤ nearestDouble m * nearestDouble (Nat.pow 10 scale.toNat)

/-- The value of a number. -/
def value (n : Numeral) : Json :=
  if n.overflows then .unreadable n.spelling
  else if n.fraction.isSome || n.exponent.isSome then .decimal n.spelling
  else
    let m := ofDigits n.whole
    if n.negative then
      if 0 < m ∧ m ≤ 0x8000000000000000 then .int (-(m : Int)) else .decimal n.spelling
    else if m < 0x10000000000000000 then .int m else .decimal n.spelling

end Numeral
end Json
end ClassCompiler
