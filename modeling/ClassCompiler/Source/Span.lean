/-!
# Places in the source text

Key definitions: `Location`, `Span`, `Span.text`.
-/

namespace ClassCompiler

structure Location where
  line : Nat
  column : Nat
  offset : Nat
deriving DecidableEq

/-- A stretch of source text. A part that was not read from a text has the
span of zeros. -/
structure Span where
  start : Location
  stop : Location
deriving DecidableEq

namespace Location

def zero : Location := ⟨0, 0, 0⟩

end Location

namespace Span

def zero : Span := ⟨.zero, .zero⟩

/-- Where a span starts, as messages show it. -/
def text (s : Span) : String :=
  toString s.start.line ++ ":" ++ toString s.start.column

end Span

instance : Inhabited Span := ⟨.zero⟩

end ClassCompiler
