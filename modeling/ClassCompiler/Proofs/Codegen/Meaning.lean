import ClassCompiler.Codegen.Routine
import ClassCompiler.Proofs.Codegen.Machine

/-!
# What routines mean

A reference semantics of routine bodies, apart from any machine. Integers are
words of 32 bits that wrap around; a truth value, a character and a reference
are values of their own kind, and a character counts as an integer wherever a
number is asked for. Operands are evaluated from left to right, and `&&` and
`||` leave out their right operand where the left one decides.

An expression without a meaning has no value: a division by zero or of the
least number by minus one, an operator on values of the wrong kind, a variable
that is not in scope or has been given no value. The constructs that the
compiler has no code for have no meaning here either.

Scopes are lexical. The variables are one list, innermost first; a declaration
adds to it, and what a block or a loop declared is dropped at its end.

Key definitions: `Value`, `Value.word`, `Variables`, `Expr.eval`, `Ending`, `Task`,
`Runs`, `Routine.Runs`.
-/

namespace ClassCompiler

inductive Value where
  | int (value : MachineWord)
  | bool (value : Bool)
  | char (value : Char)
  | ref (address : MachineWord)
deriving DecidableEq

namespace Value

/-- The word that stands for a value in the machine. -/
def word : Value → MachineWord
  | .int n => n
  | .bool b => if b then 1 else 0
  | .char c => BitVec.ofNat 32 c.toNat
  | .ref a => a

/-- A value as an operand of arithmetic. -/
def number? : Value → Option MachineWord
  | .int n => some n
  | .char c => some (BitVec.ofNat 32 c.toNat)
  | _ => none

end Value

/-- The variables in scope, innermost first. A variable may lack a value: a
parameter for which no argument was passed. -/
abbrev Variables := List (String × Option Value)

namespace Variables

def value? (vars : Variables) (name : String) : Option Value :=
  (vars.lookup name).join

def declare (vars : Variables) (name : String) (v : Value) : Variables :=
  (name, some v) :: vars

/-- Give the innermost variable of a name a value. -/
def assign? (name : String) (v : Value) : Variables → Option Variables
  | [] => none
  | (other, old) :: rest =>
    if name = other then some ((other, some v) :: rest)
    else (assign? name v rest).map ((other, old) :: ·)

/-- Drop the variables that have been declared since there were `depth`. -/
def leave (vars : Variables) (depth : Nat) : Variables :=
  vars.drop (vars.length - depth)

end Variables

/-- A literal as a value. An integer stands for its residue. -/
def Literal.value? : Literal → Option Value
  | .integer n => some (.int (BitVec.ofInt 32 n.toInt))
  | .boolean b => some (.bool b)
  | .char c => some (.char c)
  | .string _ => none
  | .null => some (.ref 0)

def UnaryOp.result? : UnaryOp → Value → Option Value
  | .minus, v => v.number?.map fun n => .int (-n)
  | .not, .bool b => some (.bool !b)
  | .not, _ => none

namespace BinaryOp

/-- Whether two words have a quotient: the divisor is not zero, and the
quotient is a word. -/
def divides (a b : MachineWord) : Bool :=
  b.toInt ≠ 0 ∧ ¬ (a.toInt = -0x80000000 ∧ b.toInt = -1)

def onNumbers? (op : BinaryOp) (a b : MachineWord) : Option Value :=
  match op with
  | .add => some (.int (a + b))
  | .sub => some (.int (a - b))
  | .mul => some (.int (a * b))
  | .div => if divides a b then some (.int (BitVec.ofInt 32 (a.toInt.tdiv b.toInt))) else none
  | .mod => if divides a b then some (.int (BitVec.ofInt 32 (a.toInt.tmod b.toInt))) else none
  | .lt => some (.bool (a.toInt < b.toInt))
  | .le => some (.bool (a.toInt ≤ b.toInt))
  | .gt => some (.bool (a.toInt > b.toInt))
  | .ge => some (.bool (a.toInt ≥ b.toInt))
  | .eq => some (.bool (a = b))
  | .ne => some (.bool (a ≠ b))
  | .bitAnd => some (.int (a &&& b))
  | .bitOr => some (.int (a ||| b))
  | .and | .or => none

def onBools? (op : BinaryOp) (a b : Bool) : Option Value :=
  match op with
  | .eq => some (.bool (a = b))
  | .ne => some (.bool (a ≠ b))
  | .bitAnd => some (.bool (a && b))
  | .bitOr => some (.bool (a || b))
  | _ => none

def onRefs? (op : BinaryOp) (a b : MachineWord) : Option Value :=
  match op with
  | .eq => some (.bool (a = b))
  | .ne => some (.bool (a ≠ b))
  | _ => none

/-- An operator that evaluates both of its operands. -/
def result? (op : BinaryOp) : Value → Value → Option Value
  | .bool a, .bool b => op.onBools? a b
  | .ref a, .ref b => op.onRefs? a b
  | a, b => do op.onNumbers? (← a.number?) (← b.number?)

/-- The left operand for which an operator leaves out the right one. -/
def decidedBy? : BinaryOp → Option Bool
  | .and => some false
  | .or => some true
  | _ => none

end BinaryOp

/-- The value of an expression, and the variables after its assignments. -/
def Expr.eval (vars : Variables) : Expr → Option (Value × Variables)
  | .literal l _ => l.value?.map fun v => (v, vars)
  | .name ident _ => (vars.value? ident).map fun v => (v, vars)
  | .binary left op right _ => do
    let (a, vars) ← left.eval vars
    match op.decidedBy? with
    | none => do
      let (b, vars) ← right.eval vars
      let v ← op.result? a b
      return (v, vars)
    | some decided =>
      match a with
      | .bool b =>
        if b = decided then some (.bool b, vars)
        else
          match right.eval vars with
          | some (.bool c, vars) => some (.bool c, vars)
          | _ => none
      | _ => none
  | .unary op operand _ => do
    let (v, vars) ← operand.eval vars
    let v ← op.result? v
    return (v, vars)
  | .assign (.name ident _) value _ => do
    let (v, vars) ← value.eval vars
    let vars ← vars.assign? ident v
    return (v, vars)
  | _ => none

/-- The condition of a loop; a loop without one goes on. -/
def Expr.test (vars : Variables) : Option Expr → Option (Bool × Variables)
  | none => some (true, vars)
  | some e =>
    match e.eval vars with
    | some (.bool b, vars) => some (b, vars)
    | _ => none

/-- The variables after the update of a loop, if it has one. -/
def Expr.update (vars : Variables) : Option Expr → Option Variables
  | none => some vars
  | some e => (e.eval vars).map (·.2)

/-- How a statement ends: at its end, or by a return, perhaps with a value. -/
inductive Ending where
  | completed (vars : Variables)
  | returned (value : Option Value)

/-- The end of a block that began with `depth` variables. -/
def Ending.leave (depth : Nat) : Ending → Ending
  | .completed vars => .completed (vars.leave depth)
  | .returned v => .returned v

/-- What there is to run: a statement, the statements of a block, or the rounds
of a loop. -/
inductive Task where
  | stmt (s : Stmt)
  | seq (ss : List Stmt)
  | loop (condition update : Option Expr) (body : Stmt)

/-- A task that starts with the given variables comes to an ending. -/
inductive Runs : Variables → Task → Ending → Prop
  | expr {vars vars' e v sp} (h : e.eval vars = some (v, vars')) :
    Runs vars (.stmt (.expr e sp)) (.completed vars')
  | localVar {vars vars' type ident e v sp} (h : e.eval vars = some (v, vars')) :
    Runs vars (.stmt (.localVar type ident e sp)) (.completed (vars'.declare ident v))
  | branch {vars vars' c b thenPart elsePart out sp} (hc : c.eval vars = some (.bool b, vars'))
    (h : Runs vars' (.stmt (if b then thenPart else elsePart.getD .empty)) out) :
    Runs vars (.stmt (.branch c thenPart elsePart sp)) out
  | whileLoop {vars c body out sp} (h : Runs vars (.loop (some c) none body) out) :
    Runs vars (.stmt (.whileLoop c body sp)) out
  | forLoop {vars vars' init c u body out sp}
    (hi : Runs vars (.stmt (init.getD .empty)) (.completed vars'))
    (h : Runs vars' (.loop c u body) out) :
    Runs vars (.stmt (.forLoop init c u body sp)) (out.leave vars.length)
  | forInitReturns {vars init c u body v sp}
    (hi : Runs vars (.stmt (init.getD .empty)) (.returned v)) :
    Runs vars (.stmt (.forLoop init c u body sp)) (.returned v)
  | ret {vars sp} : Runs vars (.stmt (.ret none sp)) (.returned none)
  | retValue {vars vars' e v sp} (h : e.eval vars = some (v, vars')) :
    Runs vars (.stmt (.ret (some e) sp)) (.returned (some v))
  | block {vars ss out sp} (h : Runs vars (.seq ss) out) :
    Runs vars (.stmt (.block ss sp)) (out.leave vars.length)
  | empty {vars} : Runs vars (.stmt .empty) (.completed vars)
  | nil {vars} : Runs vars (.seq []) (.completed vars)
  | cons {vars vars' s ss out} (h : Runs vars (.stmt s) (.completed vars'))
    (hs : Runs vars' (.seq ss) out) : Runs vars (.seq (s :: ss)) out
  | consReturns {vars s ss v} (h : Runs vars (.stmt s) (.returned v)) :
    Runs vars (.seq (s :: ss)) (.returned v)
  | loopEnds {vars vars' c u body} (hc : Expr.test vars c = some (false, vars')) :
    Runs vars (.loop c u body) (.completed vars')
  | loopReturns {vars vars' c u body v} (hc : Expr.test vars c = some (true, vars'))
    (h : Runs vars' (.stmt body) (.returned v)) : Runs vars (.loop c u body) (.returned v)
  | loopGoesOn {vars vars₁ vars₂ vars₃ c u body out}
    (hc : Expr.test vars c = some (true, vars₁)) (h : Runs vars₁ (.stmt body) (.completed vars₂))
    (hu : Expr.update vars₂ u = some vars₃) (hl : Runs vars₃ (.loop c u body) out) :
    Runs vars (.loop c u body) out

namespace Routine

/-- The word of the first declared parameter: a receiver comes before it. -/
def firstArgument (r : Routine) : Nat := if r.isInstance then 1 else 0

/-- The variables at the start of a routine that is called with `arguments`,
the receiver included. -/
def startVariables (r : Routine) (arguments : List Value) : Variables :=
  ((r.parameters.zipIdx r.firstArgument).map fun p => (p.1, arguments[p.2]?)).reverse

/-- The body of a routine that is called with `arguments` comes to an ending. -/
def Runs (r : Routine) (arguments : List Value) (out : Ending) : Prop :=
  ClassCompiler.Runs (r.startVariables arguments) (.seq r.body.statements) out

end Routine
end ClassCompiler
