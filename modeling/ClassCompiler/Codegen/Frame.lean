import ClassCompiler.Assembly.Instr
import ClassCompiler.Source.Decl

/-!
# Frames

Where the variables of a routine live while its code is generated. Parameters
have the argument words, after the word of the receiver if there is one; each
local variable takes the next word, in the order of declaration, and no word is
used again. Scopes only decide which name means which word.

The number of words that a body needs is known before its code is generated: it
is the number of local declarations in it (`Block.localCount`).

Key definitions: `Frame`, `Frame.begin`, `Frame.declare`, `Frame.lookup?`,
`Stmt.localCount`, `Block.localCount`.
-/

namespace ClassCompiler

/-- The names in scope, innermost scope first, and the next free word. -/
structure Frame where
  nextLocal : Nat
  arguments : List (String × Nat)
  scopes : List (List (String × Nat))
deriving DecidableEq

namespace Frame

def empty : Frame := ⟨0, [], []⟩

/-- The frame at the start of a routine. Of two parameters of one name the
later is meant. -/
def begin (parameters : List String) (isInstance : Bool) : Frame where
  nextLocal := 0
  arguments := (parameters.zipIdx (if isInstance then 1 else 0)).reverse
  scopes := []

def enter (f : Frame) : Frame :=
  { f with scopes := [] :: f.scopes }

def exit (f : Frame) : Frame :=
  { f with scopes := f.scopes.tail }

/-- Give a new local variable the next word, in the innermost scope. Outside
all scopes the declaration opens one. -/
def declare (f : Frame) (name : String) : Frame :=
  { f with
    nextLocal := f.nextLocal + 1
    scopes :=
      match f.scopes with
      | [] => [[(name, f.nextLocal)]]
      | scope :: outer => ((name, f.nextLocal) :: scope) :: outer }

/-- The word of the local variable that is declared next. -/
def nextSlot (f : Frame) : Slot := .localVar f.nextLocal

/-- The word that a name means: a local variable of the innermost scope that
has the name, or else a parameter. -/
def lookup? (f : Frame) (name : String) : Option Slot :=
  match f.scopes.findSome? fun scope => scope.lookup name with
  | some k => some (.localVar k)
  | none => (f.arguments.lookup name).map .argument

theorem exit_enter (f : Frame) : f.enter.exit = f := rfl

theorem lookup?_enter (f : Frame) (name : String) : f.enter.lookup? name = f.lookup? name := rfl

/-- A declaration hides what its name meant before, and no other name. -/
theorem lookup?_declare (f : Frame) (name other : String) :
    (f.declare name).lookup? other = if other = name then some f.nextSlot else f.lookup? other := by
  rcases f with ⟨next, arguments, scopes⟩
  by_cases h : other = name
  · cases scopes <;> simp [lookup?, declare, nextSlot, h]
  · have hne : (other == name) = false := by simpa using h
    cases scopes <;> simp [lookup?, declare, List.findSome?_cons, List.lookup_cons, hne, h]

end Frame

mutual

/-- How many local variables a statement declares, at any depth. -/
def Stmt.localCount : Stmt → Nat
  | .localVar .. => 1
  | .branch _ thenPart elsePart _ => thenPart.localCount + Stmt.localCountOption elsePart
  | .whileLoop _ body _ => body.localCount
  | .forLoop init _ _ body _ => Stmt.localCountOption init + body.localCount
  | .block statements _ => Stmt.localCountAll statements
  | .expr .. | .ret .. | .empty => 0

def Stmt.localCountAll : List Stmt → Nat
  | [] => 0
  | s :: ss => s.localCount + Stmt.localCountAll ss

def Stmt.localCountOption : Option Stmt → Nat
  | none => 0
  | some s => s.localCount

end

/-- How many words the local variables of a body need. -/
def Block.localCount (b : Block) : Nat :=
  Stmt.localCountAll b.statements

end ClassCompiler
