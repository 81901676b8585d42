import ClassCompiler.Codegen.Emission
import ClassCompiler.Codegen.Frame

/-!
# Code of expressions

The code of an expression leaves its value in `eax`. A binary operator keeps
the value of its left operand on the stack while the right one is computed,
and then has the left value in `ebx` and the right one in `eax`. The operators
that may leave out their right operand jump over it instead.

Key definitions: `Literal.emit`, `BinaryOp.emitEager`, `Expr.emit`.
-/

namespace ClassCompiler

open Emit

/-- The number that a literal stands for. An integer has to fit in a word,
where the least number may also be written without its sign. -/
def Literal.word : Literal → Except Error Int
  | .integer n =>
    if n.toInt < -0x80000000 ∨ 0x80000000 < n.toInt then .error (.internal (.literalRange n.toInt))
    else .ok n.toInt
  | .boolean b => .ok (if b then 1 else 0)
  | .char c => .ok c.toNat
  | .string _ => .error (.unsupported .stringLiteral)
  | .null => .ok 0

def Literal.emit (l : Literal) : Emit Unit :=
  match l.word with
  | .error e => fail e
  | .ok n => instr (.mov .eax (.imm n))

/-- Jump if the value in `eax` is false, or if it is true. -/
def emitJump (condition : Condition) (target : Label) : Emit Unit :=
  lines [.instr (.arith .cmp .eax (.imm 0)), .instr (.jumpIf condition target)]

/-- Leave in `eax` whether the comparison holds that `unless` refutes. -/
def emitComparison (unless' : Condition) : Emit Unit := do
  let done ← fresh
  lines [
    .instr (.arith .cmp .ebx (.reg .eax)),
    .instr (.mov .eax (.imm 0)),
    .instr (.jumpIf unless' done),
    .instr (.mov .eax (.imm 1)),
    .label done]

/-- Combine the left operand in `ebx` and the right one in `eax`. -/
def BinaryOp.emitEager : BinaryOp → Emit Unit
  | .add => instr (.arith .add .eax (.reg .ebx))
  | .sub => lines [.instr (.arith .sub .ebx (.reg .eax)), .instr (.mov .eax (.reg .ebx))]
  | .mul => instr (.arith .imul .eax (.reg .ebx))
  | .div => lines [.instr (.xchg .eax .ebx), .instr .cdq, .instr (.idiv .ebx)]
  | .mod =>
    lines [.instr (.xchg .eax .ebx), .instr .cdq, .instr (.idiv .ebx),
      .instr (.mov .eax (.reg .edx))]
  | .lt => emitComparison .greaterEqual
  | .le => emitComparison .greater
  | .gt => emitComparison .lessEqual
  | .ge => emitComparison .less
  | .eq => emitComparison .notEqual
  | .ne => emitComparison .equal
  | .bitAnd => instr (.arith .and .eax (.reg .ebx))
  | .bitOr => instr (.arith .or .eax (.reg .ebx))
  | .and | .or => fail (.internal .eagerShortCircuit)

/-- The condition under which an operator leaves out its right operand. -/
def BinaryOp.skipsOn? : BinaryOp → Option Condition
  | .and => some .equal
  | .or => some .notEqual
  | _ => none

def UnaryOp.emit : UnaryOp → Emit Unit
  | .minus => instr (.neg .eax)
  | .not => instr (.arith .xor .eax (.imm 1))

/-- The word that can be assigned to through an expression. -/
def Expr.target? (f : Frame) : Expr → Option Slot
  | .name ident _ => f.lookup? ident
  | _ => none

/-- Leave the value of an expression in `eax`. -/
def Expr.emit (f : Frame) : Expr → Emit Unit
  | .literal value _ => value.emit
  | .name ident _ =>
    match f.lookup? ident with
    | some slot => instr (.mov .eax (.mem (.slot slot)))
    | none => fail (.unsupported (.fieldAccess ident))
  | .binary left op right _ =>
    match op.skipsOn? with
    | some condition => do
      let done ← fresh
      left.emit f
      emitJump condition done
      right.emit f
      label done
    | none => do
      left.emit f
      instr (.push .eax)
      right.emit f
      instr (.pop .ebx)
      op.emitEager
  | .unary op operand _ => do
    operand.emit f
    op.emit
  | .assign target value _ =>
    match target.target? f with
    | some slot => do
      value.emit f
      instr (.store (.slot slot) .eax)
    | none => fail (.unsupported .storeOutsideFrame)
  | .thisRef _ => fail (.unsupported .thisRef)
  | .call _ ident _ _ => fail (.unsupported (.call ident))
  | .field _ ident _ => fail (.unsupported (.fieldAccess ident))
  | .element .. => fail (.unsupported .elementAccess)
  | .cast type _ _ => fail (.unsupported (.cast type))
  | .instanceOf .. => fail (.unsupported .instanceOf)
  | .new type _ _ => fail (.unsupported (.new type))
  | .newArray type _ _ => fail (.unsupported (.newArray type))

def Expr.emitOption (f : Frame) : Option Expr → Emit Unit
  | none => pure ()
  | some e => e.emit f

end ClassCompiler
