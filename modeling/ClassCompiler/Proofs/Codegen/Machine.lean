import ClassCompiler.Assembly.Listing
import Mathlib.Logic.Relation

/-!
# The machine that runs listings

Registers and memory hold words of 32 bits. Where the machine is in a program
is given by the lines that are still ahead of it, so that a jump goes to the
rest of the program from the label on. Lines that are no instructions are
passed over.

The machine is on the safe side where processors differ or say more: a jump
depends on the last comparison, and an instruction that changes the flags in
any other way leaves no comparison to depend on; a division faults if its
quotient does not fit. A machine that faults, or that comes to the end of the
program, to a call or to a return has no next step.

Key definitions: `Machine`, `Machine.exec`, `Program`, `Config`, `Program.step`,
`Program.Steps`.

Key theorems: `Program.Steps.instr` runs one instruction, `Program.Steps.jump`
goes to a label of a program that defines no label twice.
-/

namespace ClassCompiler

abbrev MachineWord := BitVec 32

structure Machine where
  registers : Register → MachineWord
  memory : MachineWord → MachineWord
  compared : Option (MachineWord × MachineWord)

/-- Whether a comparison of two words, as signed numbers, has this result. -/
def Condition.holds (c : Condition) (a b : MachineWord) : Bool :=
  match c with
  | .equal => a.toInt = b.toInt
  | .notEqual => a.toInt ≠ b.toInt
  | .less => a.toInt < b.toInt
  | .lessEqual => a.toInt ≤ b.toInt
  | .greater => b.toInt < a.toInt
  | .greaterEqual => b.toInt ≤ a.toInt

/-- What an operation leaves in its target; a comparison leaves the target alone. -/
def ArithOp.apply (op : ArithOp) (a b : MachineWord) : MachineWord :=
  match op with
  | .add => a + b
  | .sub => a - b
  | .imul => a * b
  | .and => a &&& b
  | .or => a ||| b
  | .xor => a ^^^ b
  | .cmp => a

/-- Where a variable lives in the frame at `base`. -/
def Slot.address (base : MachineWord) : Slot → MachineWord
  | .argument i => base + BitVec.ofNat 32 (2 * wordSize + wordSize * i)
  | .localVar k => base - BitVec.ofNat 32 (wordSize * (k + 1))

namespace Machine

def setReg (m : Machine) (r : Register) (w : MachineWord) : Machine :=
  { m with registers := fun r' => if r' = r then w else m.registers r' }

def setMem (m : Machine) (a w : MachineWord) : Machine :=
  { m with memory := fun a' => if a' = a then w else m.memory a' }

def setCompared (m : Machine) (c : Option (MachineWord × MachineWord)) : Machine :=
  { m with compared := c }

@[simp] theorem registers_setReg (m : Machine) (r r' : Register) (w : MachineWord) :
    (m.setReg r w).registers r' = if r' = r then w else m.registers r' := rfl

@[simp] theorem memory_setReg (m : Machine) (r : Register) (w : MachineWord) :
    (m.setReg r w).memory = m.memory := rfl

@[simp] theorem compared_setReg (m : Machine) (r : Register) (w : MachineWord) :
    (m.setReg r w).compared = m.compared := rfl

@[simp] theorem registers_setMem (m : Machine) (a w : MachineWord) :
    (m.setMem a w).registers = m.registers := rfl

@[simp] theorem memory_setMem (m : Machine) (a a' w : MachineWord) :
    (m.setMem a w).memory a' = if a' = a then w else m.memory a' := rfl

@[simp] theorem registers_setCompared (m : Machine) (c : Option (MachineWord × MachineWord)) :
    (m.setCompared c).registers = m.registers := rfl

@[simp] theorem memory_setCompared (m : Machine) (c : Option (MachineWord × MachineWord)) :
    (m.setCompared c).memory = m.memory := rfl

@[simp] theorem compared_setCompared (m : Machine) (c : Option (MachineWord × MachineWord)) :
    (m.setCompared c).compared = c := rfl

/-- The word of memory that an address means, where `symbols` says where the
named cells are. -/
def address (symbols : String → MachineWord) (m : Machine) : Address → MachineWord
  | .slot s => s.address (m.registers .ebp)
  | .symbol name => symbols name
  | .offset base bytes => m.registers base + BitVec.ofNat 32 bytes

def read (symbols : String → MachineWord) (m : Machine) : Operand → MachineWord
  | .reg r => m.registers r
  | .imm n => BitVec.ofInt 32 n
  | .mem a => m.memory (m.address symbols a)

/-- The signed number in `edx` and `eax` together. -/
def dividend (m : Machine) : Int :=
  (m.registers .edx).toInt * 0x100000000 + (m.registers .eax).toNat

/-- Divide, rounding to zero, unless the divisor is zero or the quotient does
not fit. -/
def divide (m : Machine) (divisor : Int) : Option Machine :=
  let quotient := m.dividend.tdiv divisor
  if divisor = 0 ∨ quotient < -0x80000000 ∨ 0x80000000 ≤ quotient then none
  else
    some (((m.setReg .eax (BitVec.ofInt 32 quotient)).setReg .edx
      (BitVec.ofInt 32 (m.dividend.tmod divisor))).setCompared none)

/-- What an instruction that is followed by the next one does. -/
def exec (symbols : String → MachineWord) (m : Machine) : Instr → Option Machine
  | .push r =>
    let top := m.registers .esp - BitVec.ofNat 32 wordSize
    some ((m.setReg .esp top).setMem top (m.registers r))
  | .pop r =>
    let top := m.registers .esp
    some ((m.setReg .esp (top + BitVec.ofNat 32 wordSize)).setReg r (m.memory top))
  | .mov r source => some (m.setReg r (m.read symbols source))
  | .store a r => some (m.setMem (m.address symbols a) (m.registers r))
  | .storeWord a (.number n) => some (m.setMem (m.address symbols a) (BitVec.ofNat 32 n))
  | .storeWord a (.symbol name) => some (m.setMem (m.address symbols a) (symbols name))
  | .arith .cmp r source => some (m.setCompared (some (m.registers r, m.read symbols source)))
  | .arith op r source =>
    some ((m.setReg r (op.apply (m.registers r) (m.read symbols source))).setCompared none)
  | .neg r => some ((m.setReg r (-m.registers r)).setCompared none)
  | .xchg a b => some ((m.setReg a (m.registers b)).setReg b (m.registers a))
  | .cdq => some (m.setReg .edx (if (m.registers .eax).toInt < 0 then -1 else 0))
  | .idiv r => m.divide (m.registers r).toInt
  | .jmp _ | .jumpIf .. | .call _ | .ret => none

/-- Some instructions in a row. -/
def execAll (symbols : String → MachineWord) (m : Machine) (is : List Instr) : Option Machine :=
  is.foldlM (exec symbols) m

theorem execAll_append (symbols : String → MachineWord) (m : Machine) (is is' : List Instr) :
    m.execAll symbols (is ++ is') = (m.execAll symbols is).bind (execAll symbols · is') :=
  List.foldlM_append

end Machine

namespace Listing

/-- The lines from a label on. -/
def from? (l : Label) : Listing → Option Listing
  | [] => none
  | line :: rest => if line = .label l then some (line :: rest) else from? l rest

/-- The labels that a listing defines, in order. -/
def labels (ls : Listing) : List Label :=
  ls.filterMap fun
    | .label l => some l
    | _ => none

@[simp] theorem labels_append (ls ls' : Listing) : (ls ++ ls').labels = ls.labels ++ ls'.labels :=
  List.filterMap_append

theorem mem_labels {l : Label} {ls : Listing} : l ∈ ls.labels ↔ .label l ∈ ls := by
  simp only [labels, List.mem_filterMap]
  constructor
  · rintro ⟨line, hline, h⟩
    cases line <;> simp_all
  · exact fun h => ⟨_, h, rfl⟩

/-- What is behind some lines of a program is in the program. -/
theorem after (ls : Listing) {rest lines : Listing} (h : ls ++ rest <:+ lines) : rest <:+ lines :=
  (List.suffix_append ls rest).trans h

/-- Lines without a label do not stop the search for it. -/
theorem from?_append {l : Label} {rest : Listing} : ∀ {before : Listing}, l ∉ before.labels →
    from? l (before ++ rest) = from? l rest
  | [], _ => rfl
  | line :: before, h => by
    have hne : line ≠ .label l := fun he => h (mem_labels.mpr (he ▸ List.mem_cons_self))
    have hrest : l ∉ labels before := fun hl =>
      h (mem_labels.mpr (List.mem_cons_of_mem line (mem_labels.mp hl)))
    rw [List.cons_append, from?, if_neg hne, from?_append hrest]

/-- In a listing that defines no label twice, a label leads to its one place. -/
theorem from?_of_suffix {l : Label} {rest : Listing} :
    ∀ {ls : Listing}, ls.labels.Nodup → .label l :: rest <:+ ls →
      ls.from? l = some (.label l :: rest)
  | [], _, h => by simp at h
  | line :: ls, hn, h => by
    rw [from?]
    rcases List.suffix_cons_iff.mp h with h | h
    · obtain ⟨rfl, rfl⟩ := List.cons.inj h
      simp
    · have hl : l ∈ labels ls := mem_labels.mpr (h.subset List.mem_cons_self)
      have hne : line ≠ .label l := by
        rintro rfl
        exact (List.nodup_cons.mp (show (l :: labels ls).Nodup from hn)).1 hl
      have hn' : (labels ls).Nodup := hn.sublist ((List.sublist_cons_self line ls).filterMap _)
      rw [if_neg hne, from?_of_suffix hn' h]

end Listing

/-- Lines to run, and where the cells and routines that they name are. -/
structure Program where
  lines : Listing
  symbols : String → MachineWord

/-- A machine and the lines ahead of it. -/
structure Config where
  code : Listing
  machine : Machine

/-- The machine is about to return. -/
def Config.AtReturn (c : Config) : Prop :=
  ∃ rest, c.code = .instr .ret :: rest

namespace Program

/-- Go to a label. -/
def goto (p : Program) (l : Label) (m : Machine) : Option Config :=
  (p.lines.from? l).map fun code => ⟨code, m⟩

theorem goto_of_notMem {p : Program} {l : Label} {before rest : Listing} {m : Machine}
    (hp : p.lines = before ++ .label l :: rest) (h : l ∉ before.labels) :
    p.goto l m = some ⟨.label l :: rest, m⟩ := by
  rw [goto, hp, Listing.from?_append h, Listing.from?, if_pos rfl]
  rfl

def step (p : Program) : Config → Option Config
  | ⟨[], _⟩ => none
  | ⟨.instr (.jmp l) :: _, m⟩ => p.goto l m
  | ⟨.instr (.jumpIf condition l) :: rest, m⟩ =>
    match m.compared with
    | none => none
    | some (a, b) => if condition.holds a b then p.goto l m else some ⟨rest, m⟩
  | ⟨.instr i :: rest, m⟩ => (m.exec p.symbols i).map fun m' => ⟨rest, m'⟩
  | ⟨_ :: rest, m⟩ => some ⟨rest, m⟩

/-- Any number of steps. -/
def Steps (p : Program) : Config → Config → Prop :=
  Relation.ReflTransGen fun c c' => p.step c = some c'

namespace Steps

variable {p : Program} {m m' : Machine} {rest : Listing}

theorem refl (c : Config) : p.Steps c c := Relation.ReflTransGen.refl

theorem trans {a b c : Config} (h : p.Steps a b) (h' : p.Steps b c) : p.Steps a c :=
  Relation.ReflTransGen.trans h h'

theorem single {a b : Config} (h : p.step a = some b) : p.Steps a b :=
  Relation.ReflTransGen.single h

/-- One instruction that is followed by the next one. -/
theorem instr {i : Instr} (h : m.exec p.symbols i = some m') :
    p.Steps ⟨.instr i :: rest, m⟩ ⟨rest, m'⟩ := by
  apply single
  cases i with
  | jmp | jumpIf | call | ret => simp [Machine.exec] at h
  | _ => simp [step, h]

theorem instrs : ∀ (is : List Instr) {m : Machine}, m.execAll p.symbols is = some m' →
    p.Steps ⟨is.map .instr ++ rest, m⟩ ⟨rest, m'⟩
  | [], m, h => by
    obtain rfl : m = m' := Option.some.inj h
    exact refl _
  | i :: is, m, h => by
    obtain ⟨m₁, h₁, h₂⟩ := Option.bind_eq_some_iff.mp h
    exact (instr h₁).trans (instrs is h₂)

theorem label (l : Label) : p.Steps ⟨.label l :: rest, m⟩ ⟨rest, m⟩ :=
  single rfl

theorem comment (s : String) : p.Steps ⟨.comment s :: rest, m⟩ ⟨rest, m⟩ :=
  single rfl

/-- A jump, to the place of its label. -/
theorem jump {l : Label} {rest' : Listing} (hp : p.lines.labels.Nodup)
    (hl : .label l :: rest' <:+ p.lines) :
    p.Steps ⟨.instr (.jmp l) :: rest, m⟩ ⟨.label l :: rest', m⟩ :=
  single (by simp [step, goto, Listing.from?_of_suffix hp hl])

/-- A jump that depends on a comparison, where the comparison allows it. -/
theorem jumpTaken {l : Label} {rest' : Listing} {c : Condition} {a b : MachineWord}
    (hp : p.lines.labels.Nodup) (hl : .label l :: rest' <:+ p.lines)
    (hm : m.compared = some (a, b)) (hc : c.holds a b = true) :
    p.Steps ⟨.instr (.jumpIf c l) :: rest, m⟩ ⟨rest', m⟩ := by
  refine (single ?_).trans (label l)
  simp [step, goto, hm, hc, Listing.from?_of_suffix hp hl]

theorem jumpNotTaken {l : Label} {c : Condition} {a b : MachineWord}
    (hm : m.compared = some (a, b)) (hc : c.holds a b = false) :
    p.Steps ⟨.instr (.jumpIf c l) :: rest, m⟩ ⟨rest, m⟩ :=
  single (by simp [step, hm, hc])

end Steps
end Program
end ClassCompiler
