import ClassCompiler.Check
import ClassCompiler.Dispatch.Build
import ClassCompiler.Output.Generate

/-!
# Compiling a program

A lawful program is written into its output directory, which is made if it is
not there. The layout is that of the program, unless another is given. A
program that is not lawful leaves everything as it is.

Key definitions: `Place`, `Layout.choose`, `prepare`, `compile`.
-/

namespace ClassCompiler

/-- What is at the path of the output directory: nothing, but it can be made;
something that does not allow it; or the directory. -/
inductive Place where
  | absent (made : Directory)
  | blocked (fault : Fault)
  | directory (directory : Directory)

namespace Place

/-- The directory at a place, made if nothing is there. -/
def open? : Place → Except Fault Directory
  | .absent made => .ok made
  | .blocked fault => .error fault
  | .directory d => .ok d

end Place

/-- The layout to compile a program with: the given one, or else its own. -/
def Layout.choose (given : Option Layout) (g : Graph) (us : List CompilationUnit) :
    Except Error Layout :=
  match given with
  | some layout => .ok layout
  | none => Layout.ofGraph g us

/-- Check a program and choose its layout. Nothing is written before this. -/
def prepare (o : Options) (given : Option Layout) (us : List CompilationUnit) :
    Except Error Layout :=
  match check us o.allowUnresolved with
  | .error e => .error e
  | .ok g => Layout.choose given g us

/-- Check a program and write its assembly. The place afterwards is part of the
answer, and so are the paths written, units first. -/
def compile (o : Options) (given : Option Layout) (us : List CompilationUnit) (place : Place) :
    Place × Except Error (List String) :=
  match prepare o given us with
  | .error e => (place, .error e)
  | .ok layout =>
    match place.open? with
    | .error fault => (place, .error (.output o.outputDir fault))
    | .ok d =>
      match generateAll o layout us d with
      | (d, result) => (.directory d, result)

end ClassCompiler
