import ClassCompiler.Source.Shape
import ClassCompiler.Text.Quoted

/-!
# Detailed listings

The detailed listing of a value shows every part of its shape: records with
their names and fields, variants with their payload, an optional value as
`Some` or `None`, each part on a line of its own, four spaces deeper than the
part it belongs to. A list without items stays closed.

Key definitions: `Shape.detail`, `CompilationUnit.detail`.
-/

namespace ClassCompiler
namespace Shape

/-- The start of a line `level` parts deep. -/
def lineStart (level : Nat) : String :=
  "\n" ++ String.ofList (List.replicate (4 * level) ' ')

mutual

/-- The listing of a shape that stands `level` parts deep. -/
def detail (level : Nat) : Shape → String
  | .flag b => if b then "true" else "false"
  | .number n => toString n
  | .text s => Text.quote s
  | .char c => Text.quoteChar c
  | .absent => "None"
  | .present s =>
    "Some(" ++ lineStart (level + 1) ++ detail (level + 1) s ++ "," ++ lineStart level ++ ")"
  | .list [] => "[]"
  | .list (s :: ss) => "[" ++ detailItems (level + 1) (s :: ss) ++ lineStart level ++ "]"
  | .record name fields =>
    name ++ " \x7b" ++ detailFields (level + 1) fields ++ lineStart level ++ "\x7d"
  | .tag name => name
  | .variant name payload =>
    name ++ "(" ++ lineStart (level + 1) ++ detail (level + 1) payload ++ "," ++
      lineStart level ++ ")"

def detailItems (level : Nat) : List Shape → String
  | [] => ""
  | s :: ss => lineStart level ++ detail level s ++ "," ++ detailItems level ss

def detailFields (level : Nat) : List (String × Shape) → String
  | [] => ""
  | (name, s) :: fields =>
    lineStart level ++ name ++ ": " ++ detail level s ++ "," ++ detailFields level fields

end

end Shape

def CompilationUnit.detail (u : CompilationUnit) : String :=
  u.shape.detail 0 ++ "\n"

end ClassCompiler
