import ClassCompiler.Hierarchy.Verify
import ClassCompiler.SelfReference

/-!
# Checking a program

A program is lawful if its types can be entered into a graph, the graph obeys
the hierarchy rules, and no local variable is used in its own initializer.

Key definition: `check`.
-/

namespace ClassCompiler

/-- The hierarchy graph of a lawful program. -/
def check (us : List CompilationUnit) (allowUnresolved : Bool) : Except Error Graph :=
  match Graph.empty.declareAndVerify allowUnresolved us with
  | (_, .error e) => .error e
  | (g, .ok ()) =>
    match checkSelfReferences us with
    | .error e => .error e
    | .ok () => .ok g

end ClassCompiler
