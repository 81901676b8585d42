/-!
# Blank text

The characters that count as white space, by the White_Space property, and
texts that hold nothing else.

Key definitions: `isBlankChar`, `isBlank`.
-/

namespace ClassCompiler
namespace Text

/-- White space, in and beyond ASCII. -/
def isBlankChar (c : Char) : Bool :=
  let n := c.toNat
  (9 ≤ n && n ≤ 13) || n == 0x20 || n == 0x85 || n == 0xA0 || n == 0x1680 ||
    (0x2000 ≤ n && n ≤ 0x200A) || n == 0x2028 || n == 0x2029 || n == 0x202F ||
    n == 0x205F || n == 0x3000

/-- A text with no character but white space; the empty text is one. -/
def isBlank (s : String) : Bool :=
  s.toList.all isBlankChar

end Text
end ClassCompiler
