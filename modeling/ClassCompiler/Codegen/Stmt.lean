import ClassCompiler.Codegen.Expr

/-!
# Code of statements

A statement is generated in the frame that the statements before it left, and
leaves a frame in turn: a declaration adds a name to the innermost scope, and a
block or a loop with its own variable gives back the scopes it found. Every
return jumps to the one end of the routine.

Key definitions: `Stmt.emit`, `Block.emit`.
-/

namespace ClassCompiler

open Emit

/-- The comment before the code of a statement. -/
def Stmt.caption (s : Stmt) : Line Instr :=
  .comment (s.kind.text ++ " " ++ s.span.text)

mutual

/-- The code of a statement in a routine that ends at `exit`. -/
def Stmt.emit (exit : Label) (f : Frame) (s : Stmt) : Emit Frame :=
  match s with
  | .expr e _ => do
    line s.caption
    e.emit f
    return f
  | .localVar _ ident initializer _ => do
    line s.caption
    initializer.emit f
    instr (.store (.slot f.nextSlot) .eax)
    return f.declare ident
  | .branch condition thenPart elsePart _ => do
    line s.caption
    let otherwise ← fresh
    condition.emit f
    emitJump .equal otherwise
    let f ← thenPart.emit exit f
    Stmt.emitElse exit f otherwise elsePart
  | .whileLoop condition body _ => do
    line s.caption
    let start ← fresh
    let done ← fresh
    label start
    condition.emit f
    emitJump .equal done
    let f ← body.emit exit f
    instr (.jmp start)
    label done
    return f
  | .forLoop init condition update body _ => do
    line s.caption
    let f ← Stmt.emitOption exit f.enter init
    let start ← fresh
    let done ← fresh
    label start
    match condition with
    | none => pure ()
    | some c => do
      c.emit f
      emitJump .equal done
    let f ← body.emit exit f
    Expr.emitOption f update
    instr (.jmp start)
    label done
    return f.exit
  | .ret value _ => do
    line s.caption
    Expr.emitOption f value
    instr (.jmp exit)
    return f
  | .block statements _ => do
    let f ← Stmt.emitAll exit f.enter statements
    return f.exit
  | .empty => return f

/-- What follows the first part of a branch: the way around the other part,
and the other part, if there is one. -/
def Stmt.emitElse (exit : Label) (f : Frame) (otherwise : Label) : Option Stmt → Emit Frame
  | none => do
    label otherwise
    return f
  | some s => do
    let done ← fresh
    instr (.jmp done)
    label otherwise
    let f ← s.emit exit f
    label done
    return f

def Stmt.emitOption (exit : Label) (f : Frame) : Option Stmt → Emit Frame
  | none => return f
  | some s => s.emit exit f

def Stmt.emitAll (exit : Label) (f : Frame) : List Stmt → Emit Frame
  | [] => return f
  | s :: ss => do
    let f ← s.emit exit f
    Stmt.emitAll exit f ss

end

def Block.emit (exit : Label) (f : Frame) (b : Block) : Emit Frame := do
  let f ← Stmt.emitAll exit f.enter b.statements
  return f.exit

end ClassCompiler
