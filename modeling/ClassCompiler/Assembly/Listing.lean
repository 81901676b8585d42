import ClassCompiler.Assembly.Instr

/-!
# Listings

Assembly text, line by line. Directives and labels start a line, instructions
and the comments between them are set in by four spaces. Comments can be left
out, which leaves every other line as it is. What an instruction is does not
matter here, only its text.

A text may be written where there is room for a limited number of bytes; then
its first bytes are written, and whatever does not fit fails.

Key definitions: `Line`, `Line.text`, `Listing.text`, `Listing.size`, `Sink.put`.
-/

namespace ClassCompiler

inductive Line (ι : Type) where
  | segment (name : String)
  | exported (symbol : String)
  | imported (symbol : String)
  | label (label : Label)
  | data (symbol : String) (value : Int)
  | instr (instr : ι)
  | comment (text : String)
  | header (text : String)
  | blank
deriving DecidableEq

namespace Line

/-- Whether a line is there for the reader only. -/
def isComment : Line ι → Bool
  | .comment _ => true
  | .header _ => true
  | _ => false

/-- A line without its line break. -/
def text (show' : ι → String) : Line ι → String
  | .segment name => "section " ++ name
  | .exported symbol => "global " ++ symbol
  | .imported symbol => "extern " ++ symbol
  | .label l => l.text ++ ":"
  | .data symbol value => symbol ++ ": dd " ++ toString value
  | .instr i => "    " ++ show' i
  | .comment s => "    ; " ++ s
  | .header s => "; " ++ s
  | .blank => ""

/-- What a line adds to a text: nothing, if it is a comment and comments are
left out. -/
def written (show' : ι → String) (comments : Bool) (line : Line ι) : String :=
  if line.isComment && !comments then "" else line.text show' ++ "\n"

end Line

/-- The lines of generated code. -/
abbrev Listing := List (Line Instr)

namespace Listing

def text (comments : Bool) (lines : Listing) : String :=
  String.join (lines.map (Line.written Instr.text comments))

/-- The bytes that a listing takes as text. -/
def size (comments : Bool) (lines : Listing) : Nat :=
  (lines.text comments).utf8ByteSize

end Listing

/-- Text that has been written where `room` bytes are left. -/
structure Sink where
  text : String
  room : Option Nat

namespace Sink

def empty (limit : Option Nat) : Sink := ⟨"", limit⟩

/-- The longest start of a text that takes at most `room` bytes. -/
def fitting : Nat → List Char → List Char
  | _, [] => []
  | room, c :: cs => if c.utf8Size ≤ room then c :: fitting (room - c.utf8Size) cs else []

/-- Write a text as far as there is room, and say whether all of it fitted. -/
def put (s : Sink) (text : String) : Sink × Bool :=
  match s.room with
  | none => (⟨s.text ++ text, none⟩, true)
  | some room =>
    if text.utf8ByteSize ≤ room then (⟨s.text ++ text, some (room - text.utf8ByteSize)⟩, true)
    else (⟨s.text ++ String.ofList (fitting room text.toList), some 0⟩, false)

end Sink
end ClassCompiler
