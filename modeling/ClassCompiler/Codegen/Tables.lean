import ClassCompiler.Assembly.Listing
import ClassCompiler.Dispatch.Layout

/-!
# Code that builds the tables

The tables of a layout are filled at run time, by routines that allocate memory
and store one word after another. A class has a cell for the address of its
vtable and a routine that fills it. The two tables of the whole program are
rows of pointers: one word for each row, and a block of words that it points to.

Key definitions: `ClassLayout.vtableListing`, `Layout.tablesListing`, `importedSymbols`.
-/

namespace ClassCompiler

/-- Put a text into its place in a strictly increasing list of texts. -/
def insertSymbol (s : String) : List String → List String
  | [] => [s]
  | t :: ts => if s < t then s :: t :: ts else if s = t then t :: ts else t :: insertSymbol s ts

/-- Declarations of the symbols that other files define: each once, in order. -/
def importedSymbols (symbols : List String) : Listing :=
  (symbols.foldr insertSymbol []).map .imported

/-- Allocate words and leave their address in `eax`. -/
def allocate (words : Nat) : Listing :=
  [.instr (.mov .eax (.imm (wordSize * words : Nat))), .instr (.call Symbol.malloc)]

/-- A word of data that other files can see. -/
def exportedCell (symbol : String) : Listing :=
  [.exported symbol, .data symbol 0]

namespace VtableEntry

/-- What the slot holds at run time. -/
def word (e : VtableEntry) : Word :=
  if e.isAbstract then .number 0 else .symbol e.label

def fill (slot : Nat) (e : VtableEntry) : Listing :=
  [.comment ("slot " ++ toString slot ++ ": " ++ e.signature.text),
    .instr (.storeWord (.offset .ebx (wordSize * slot)) e.word)]

end VtableEntry

namespace ClassLayout

/-- The routines in the vtable that the file of the type `typeName` lacks. -/
def foreignLabels (c : ClassLayout) (typeName : String) : List String :=
  (c.vtable.filter fun e => !e.isAbstract && e.owner != typeName).map (·.label)

/-- The vtable of a class, in the file of the type `typeName`. -/
def vtableListing (c : ClassLayout) (typeName : String) : Listing :=
  [.blank,
    .header ("vtable of " ++ c.name ++ ": " ++ toString c.vtable.length ++ " slots"),
    .segment ".data"] ++
  exportedCell (Symbol.vtable c.name) ++
  [.segment ".text"] ++
  importedSymbols (Symbol.malloc :: c.foreignLabels typeName) ++
  [.exported (Symbol.vtableInit c.name), .label (.symbol (Symbol.vtableInit c.name))] ++
  allocate c.vtable.length ++
  [.instr (.store (.symbol (Symbol.vtable c.name)) .eax), .instr (.mov .ebx (.reg .eax))] ++
  (c.vtable.zipIdx.flatMap fun p => p.1.fill p.2) ++
  [.instr .ret]

end ClassLayout

/-- Allocate a row, enter it as row number `i` of a table and fill its cells. -/
def fillRow (table : String) (columns i : Nat) (cells : List Word) : Listing :=
  allocate columns ++
  [.instr (.mov .ebx (.mem (.symbol table))),
    .instr (.store (.offset .ebx (wordSize * i)) .eax)] ++
  cells.zipIdx.map fun p => .instr (.storeWord (.offset .eax (wordSize * p.2)) p.1)

/-- Allocate a table and fill its rows. -/
def fillTable (table : String) (rows columns : Nat) (cells : List (List Word)) : Listing :=
  allocate rows ++ [.instr (.store (.symbol table) .eax)] ++
    cells.zipIdx.flatMap fun p => fillRow table columns p.2 p.1

namespace Layout

def subtypeWord (b : Bool) : Word := .number (if b then 1 else 0)

def selectorWord : Option String → Word
  | none => .number 0
  | some label => .symbol label

/-- The tables of the whole program. -/
def tablesListing (l : Layout) : Listing :=
  [.header "dispatch tables", .segment ".data"] ++
  exportedCell Symbol.subtypeTable ++ exportedCell Symbol.selectorTable ++
  [.blank, .segment ".text"] ++
  importedSymbols (Symbol.malloc :: l.selector.flatten.filterMap id) ++
  [.exported Symbol.tablesInit, .label (.symbol Symbol.tablesInit),
    .comment ("subtype table: " ++ toString l.types.length ++ " x " ++ toString l.types.length)] ++
  fillTable Symbol.subtypeTable l.types.length l.types.length
    (l.subtypes.map fun row => row.map subtypeWord) ++
  [.comment ("selector index table: " ++ toString l.classes.length ++ " x " ++
    toString l.interfaceSlots.length)] ++
  fillTable Symbol.selectorTable l.classes.length l.interfaceSlots.length
    (l.selector.map fun row => row.map selectorWord) ++
  [.instr .ret]

end Layout
end ClassCompiler
