import ClassCompiler.Codegen.Routine
import ClassCompiler.Codegen.Tables
import ClassCompiler.Source.Tree

/-!
# Code of units

The code of a unit is generated on one pass through its declarations: that of
its members, in order, and on leaving a class its vtable. Imports, parents and
fields have no code, nor has an interface. The pass can start at any node of a
unit; it fails at a node that only means something inside a routine.

Key definitions: `Member.emit`, `Layout.generator`, `Node.emit`, `CompilationUnit.emit`,
`CompilationUnit.render`.
-/

namespace ClassCompiler

open Emit

def FieldDecl.emit (f : FieldDecl) : Emit Unit :=
  if f.initializer.isSome then fail (.unsupported (.fieldInitializer f.name)) else pure ()

def Member.emit (owner : String) : Member → Emit Unit
  | .field f => f.emit
  | .method m => m.emit owner
  | .ctor k => k.emit owner

def InterfaceDecl.emit : Emit Unit :=
  line (.header "interface: no code")

namespace Layout

/-- The vtable of the class `name`, in its own file. -/
def emitVtable (layout : Layout) (name : String) : Emit Unit :=
  match layout.class? name with
  | none => fail (.internal (.missingLayout name))
  | some c => lines (c.vtableListing name)

/-- What is generated on entering a node. The state is the name of the type that
the pass is in; a unit sets it. -/
def emitEnter : Node → StateT String Emit Unit
  | .unit u => do
    set u.qualifiedName
    lines [.header u.qualifiedName, .segment ".text"]
  | .package _ | .importDecl _ | .typeRef _ | .ofClass _ => pure ()
  | .ofInterface _ => InterfaceDecl.emit
  | .field f => do (Member.field f).emit (← get)
  | .method m => do (Member.method m).emit (← get)
  | .ctor k => do (Member.ctor k).emit (← get)
  | n => (fail (.internal (.outsideRoutine n.kind n.span)) : Emit Unit)

/-- What is generated on leaving a node. -/
def emitLeave (layout : Layout) : Node → StateT String Emit Unit
  | .ofClass _ => do layout.emitVtable (← get)
  | _ => pure ()

end Layout

/-- The pass goes on to the parts of units and classes only. -/
def Node.holdsDeclarations : Node → Bool
  | .unit _ | .ofClass _ => true
  | _ => false

/-- The visitor that generates the code of declarations. -/
def Layout.generator (layout : Layout) : Tree.Visitor (StateT String Emit) where
  enter n := do
    emitEnter n
    pure n.holdsDeclarations
  leave := layout.emitLeave

/-- The code of one node of a unit. Away from its unit a type has no name. -/
def Node.emit (layout : Layout) (n : Node) : Emit Unit :=
  Prod.fst <$> (n.tree.traverse layout.generator).run ""

def CompilationUnit.emit (layout : Layout) (u : CompilationUnit) : Emit Unit :=
  (Node.unit u).emit layout

/-- The text of a unit's code, with temporary labels from the first on. -/
def CompilationUnit.render (layout : Layout) (comments : Bool) (u : CompilationUnit) :
    Except Error String :=
  (u.emit layout 0).text comments

end ClassCompiler
