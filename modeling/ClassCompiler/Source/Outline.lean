import ClassCompiler.Source.Tree

/-!
# Outlines

The outline of a unit has a line for each node: its kind, and its lexeme in
single quotes if it has one, two spaces deeper than the line of its parent.

Key definition: `CompilationUnit.outline`.
-/

namespace ClassCompiler

/-- The line of a node without its indentation. -/
def Node.outlineText (n : Node) : String :=
  if n.lexeme = "" then n.kind.text else n.kind.text ++ " '" ++ n.lexeme ++ "'"

namespace Tree

def indent (level : Nat) : String :=
  String.ofList (List.replicate (2 * level) ' ')

mutual

/-- The lines of a tree whose root stands `level` levels deep. -/
def outline (level : Nat) : Tree → List String
  | .branch n ts => (indent level ++ n.outlineText) :: outlineAll (level + 1) ts

def outlineAll (level : Nat) : List Tree → List String
  | [] => []
  | t :: ts => outline level t ++ outlineAll level ts

end

end Tree

def CompilationUnit.outline (u : CompilationUnit) : String :=
  Text.lines (u.tree.outline 0)

end ClassCompiler
