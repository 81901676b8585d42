import ClassCompiler.Symbol

/-!
# Instructions

The instructions that generated code is made of, as data, and their text. A
routine finds its arguments above the saved frame pointer and the return
address, and its local variables below the frame pointer, a word each.

Key definitions: `Slot`, `Address`, `Operand`, `Label`, `Instr`, `Instr.text`.
-/

namespace ClassCompiler

/-- Bytes in a machine word. -/
def wordSize : Nat := 4

/-- Where a variable of the current routine lives. -/
inductive Slot where
  | argument (index : Nat)
  | localVar (index : Nat)
deriving DecidableEq

namespace Slot

def text : Slot → String
  | .argument i => "[ebp + " ++ toString (2 * wordSize + wordSize * i) ++ "]"
  | .localVar k => "[ebp - " ++ toString (wordSize * (k + 1)) ++ "]"

end Slot

inductive Register where
  | eax | ebx | edx | esp | ebp
deriving DecidableEq

namespace Register

def text : Register → String
  | .eax => "eax"
  | .ebx => "ebx"
  | .edx => "edx"
  | .esp => "esp"
  | .ebp => "ebp"

end Register

/-- A word of memory. -/
inductive Address where
  | slot (slot : Slot)
  | symbol (name : String)
  | offset (base : Register) (bytes : Nat)
deriving DecidableEq

namespace Address

def text : Address → String
  | .slot s => s.text
  | .symbol name => "[" ++ name ++ "]"
  | .offset base bytes => "[" ++ base.text ++ " + " ++ toString bytes ++ "]"

end Address

/-- What an instruction reads. -/
inductive Operand where
  | reg (register : Register)
  | imm (value : Int)
  | mem (address : Address)
deriving DecidableEq

namespace Operand

def text : Operand → String
  | .reg r => r.text
  | .imm n => toString n
  | .mem a => a.text

end Operand

/-- A constant stored in a table: a number or the address of a symbol. -/
inductive Word where
  | number (value : Nat)
  | symbol (name : String)
deriving DecidableEq

namespace Word

def text : Word → String
  | .number n => toString n
  | .symbol name => name

end Word

/-- A place in the code: numbered, or named for other files to see. -/
inductive Label where
  | temporary (number : Nat)
  | symbol (name : String)
deriving DecidableEq

namespace Label

def text : Label → String
  | .temporary n => Symbol.temporary n
  | .symbol name => name

end Label

/-- What the last comparison has to have found for a jump to be taken. -/
inductive Condition where
  | equal | notEqual | less | lessEqual | greater | greaterEqual
deriving DecidableEq

namespace Condition

def mnemonic : Condition → String
  | .equal => "je"
  | .notEqual => "jne"
  | .less => "jl"
  | .lessEqual => "jle"
  | .greater => "jg"
  | .greaterEqual => "jge"

end Condition

inductive ArithOp where
  | add | sub | imul | and | or | xor | cmp
deriving DecidableEq

namespace ArithOp

def mnemonic : ArithOp → String
  | .add => "add"
  | .sub => "sub"
  | .imul => "imul"
  | .and => "and"
  | .or => "or"
  | .xor => "xor"
  | .cmp => "cmp"

end ArithOp

inductive Instr where
  | push (source : Register)
  | pop (target : Register)
  | mov (target : Register) (source : Operand)
  | store (target : Address) (source : Register)
  | storeWord (target : Address) (value : Word)
  | arith (op : ArithOp) (target : Register) (source : Operand)
  | neg (target : Register)
  | xchg (a b : Register)
  | cdq
  | idiv (divisor : Register)
  | jmp (target : Label)
  | jumpIf (condition : Condition) (target : Label)
  | call (routine : String)
  | ret
deriving DecidableEq

namespace Instr

def text : Instr → String
  | .push r => "push " ++ r.text
  | .pop r => "pop " ++ r.text
  | .mov target source => "mov " ++ target.text ++ ", " ++ source.text
  | .store target source => "mov " ++ target.text ++ ", " ++ source.text
  | .storeWord target value => "mov dword " ++ target.text ++ ", " ++ value.text
  | .arith op target source => op.mnemonic ++ " " ++ target.text ++ ", " ++ source.text
  | .neg r => "neg " ++ r.text
  | .xchg a b => "xchg " ++ a.text ++ ", " ++ b.text
  | .cdq => "cdq"
  | .idiv r => "idiv " ++ r.text
  | .jmp target => "jmp " ++ target.text
  | .jumpIf condition target => condition.mnemonic ++ " " ++ target.text
  | .call routine => "call " ++ routine
  | .ret => "ret"

end Instr
end ClassCompiler
