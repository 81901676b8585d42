import ClassCompiler.Codegen.Stmt

/-!
# Code of routines

A routine saves the frame pointer of its caller, reserves a word for each of
its local variables, runs its body and undoes both at its one end.

Key definitions: `Routine`, `Routine.emit`, `MethodDecl.emit`, `ConstructorDecl.emit`.
-/

namespace ClassCompiler

open Emit

structure Routine where
  name : String
  symbol : String
  parameters : List String
  isInstance : Bool
  body : Block

namespace Routine

def ofMethod (owner : String) (m : MethodDecl) (body : Block) : Routine where
  name := m.name
  symbol := Symbol.ofMethod owner (Method.ofDecl owner m).signature
  parameters := m.parameters.map (·.name)
  isInstance := !m.has .isStatic
  body := body

def ofConstructor (owner : String) (k : ConstructorDecl) : Routine where
  name := k.name
  symbol := Symbol.ofConstructor owner (Method.ofConstructor owner k).signature
  parameters := k.parameters.map (·.name)
  isInstance := true
  body := k.body

def caption (r : Routine) : Line Instr :=
  .header ((if r.isInstance then "routine " else "static routine ") ++ r.name)

/-- The entry of a routine that has `locals` local variables. -/
def entry (r : Routine) (locals : Nat) : Listing :=
  [.blank, r.caption, .exported r.symbol, .label (.symbol r.symbol), .instr (.push .ebp),
    .instr (.mov .ebp (.reg .esp))] ++
  if locals = 0 then [] else [.instr (.arith .sub .esp (.imm (wordSize * locals : Nat)))]

/-- The end of a routine, where all its returns meet. -/
def epilogue (exit : Label) : Listing :=
  [.label exit, .instr (.mov .esp (.reg .ebp)), .instr (.pop .ebp), .instr .ret]

def emit (r : Routine) : Emit Unit := do
  let exit ← fresh
  lines (r.entry r.body.localCount)
  let f ← r.body.emit exit (Frame.begin r.parameters r.isInstance)
  if f.nextLocal = r.body.localCount then lines (epilogue exit)
  else fail (.internal (.frameMismatch r.symbol r.body.localCount f.nextLocal))

end Routine

/-- A method without a body has no code: it is abstract, or static and native. -/
def MethodDecl.emitBodyless (owner : String) (m : MethodDecl) : Emit Unit :=
  let method := Method.ofDecl owner m
  if method.has .isNative && !method.has .isStatic then
    fail (.unsupported (.nativeInstanceMethod method))
  else if !method.has .isAbstract && !method.has .isNative then
    fail (.internal (.missingBody method))
  else lines [.blank, .header (Symbol.ofMethod owner method.signature ++ " has no body")]

def MethodDecl.emit (owner : String) (m : MethodDecl) : Emit Unit :=
  match m.body with
  | none => m.emitBodyless owner
  | some body => (Routine.ofMethod owner m body).emit

def ConstructorDecl.emit (owner : String) (k : ConstructorDecl) : Emit Unit :=
  (Routine.ofConstructor owner k).emit

end ClassCompiler
