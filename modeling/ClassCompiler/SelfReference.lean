import ClassCompiler.Error
import ClassCompiler.Source.Tree

/-!
# Local variables used in their own initializer

The first local variable of a program, in source order, whose initializer names
the variable itself, and the first place in the initializer that does. A
qualified name uses the variable that its first segment names.

Two passes look for it: one through a unit, which fails at the first such
declaration, and at each declaration one through the initializer, which declines
to go on once it has found the name.

Key definitions: `SelfReference.uses?`, `CompilationUnit.checkSelfReferences`,
`checkSelfReferences`.
-/

namespace ClassCompiler
namespace SelfReference

/-- The span of a node that is a name whose first segment is `ident`. -/
def mention? (ident : String) : Node → Option Span
  | .expr (.name text span) => if Text.firstSegment text = ident then some span else none
  | _ => none

/-- The visitor that keeps the first mention of `ident`. -/
def finder (ident : String) : Tree.Visitor (StateM (Option Span)) where
  enter n := do
    match ← get with
    | some _ => pure false
    | none =>
      set (mention? ident n)
      pure true
  leave _ := pure ()

/-- Where an initializer first names the variable it initializes. -/
def uses? (ident : String) (initializer : Expr) : Option Span :=
  ((initializer.tree.traverse (finder ident)).run none).2

/-- Fails at a node that declares a local variable with a self reference. -/
def checkNode : Node → Except Error Unit
  | .stmt (.localVar _ ident initializer _) =>
    match uses? ident initializer with
    | some span => .error (.selfReference ident span)
    | none => .ok ()
  | _ => .ok ()

/-- The visitor that checks every node. -/
def checker : Tree.Visitor (Except Error) where
  enter n := do
    checkNode n
    pure true
  leave _ := pure ()

end SelfReference

/-- No local variable of the unit is used in its own initializer. -/
def CompilationUnit.checkSelfReferences (u : CompilationUnit) : Except Error Unit :=
  u.tree.traverse SelfReference.checker

/-- No local variable of the units is used in its own initializer. -/
def checkSelfReferences (us : List CompilationUnit) : Except Error Unit :=
  us.forM CompilationUnit.checkSelfReferences

end ClassCompiler
