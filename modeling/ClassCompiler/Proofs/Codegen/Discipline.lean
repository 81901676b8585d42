import ClassCompiler.Proofs.Codegen.Points
import ClassCompiler.Proofs.Codegen.RoutineRuns

/-!
# The stack while a routine runs

What holds in every state of a call, whether the call ends or not. In the body
the stack pointer is below the frame pointer by the local variables and by the
operands that wait at the point of the code where the machine is. A pop finds
the word that the matching push has stored. Memory is written below the return
address and in the words of declared parameters only, so the words of the caller
stay, and at the return both pointers are those of the call.

A state in the body goes with a mark of the code (`Routine.InBody`), and a step
leads to the next point or to the target of a jump, where the mark is the one
that the machine needs (`Routine.InBody.step`). Before and after the body there
are a few states more (`Routine.Stage`).

Key definitions: `Config.writes?`, `Config.openPushes`, `Program.Visits`,
`Routine.MayWrite`, `Routine.InBody`, `Routine.Stage`, `Routine.Disciplined`.

Key theorems: `Program.memory_of_step`, `Routine.InBody.step`,
`Routine.Stage.visits`, `Member.code_keeps_stack`.
-/

namespace ClassCompiler

/-! ### Steps and what they write -/

/-- The word of memory that the next step writes. -/
def Config.writes? (symbols : String → MachineWord) (c : Config) : Option MachineWord :=
  match c.code with
  | .instr (.push _) :: _ => some (c.machine.registers .esp - BitVec.ofNat 32 wordSize)
  | .instr (.store a _) :: _ | .instr (.storeWord a _) :: _ => some (c.machine.address symbols a)
  | _ => none

/-- The machine is about to divide and cannot. -/
def Config.Faults (symbols : String → MachineWord) (c : Config) : Prop :=
  ∃ r rest, c.code = .instr (.idiv r) :: rest ∧ c.machine.exec symbols (.idiv r) = none

theorem Machine.memory_of_exec {symbols : String → MachineWord} {m m' : Machine} {i : Instr}
    {rest : Listing} (h : m.exec symbols i = some m') {x : MachineWord}
    (hx : Config.writes? symbols ⟨.instr i :: rest, m⟩ ≠ some x) : m'.memory x = m.memory x := by
  cases i with
  | push r | store a r =>
    obtain rfl := Option.some.inj h
    exact if_neg fun he => hx (congrArg some he.symm)
  | storeWord a w =>
    cases w <;> obtain rfl := Option.some.inj h <;> exact if_neg fun he => hx (congrArg some he.symm)
  | arith op r o => cases op <;> obtain rfl := Option.some.inj h <;> rfl
  | idiv r =>
    simp only [exec, divide] at h
    split at h
    · cases h
    · obtain rfl := Option.some.inj h
      rfl
  | jmp | jumpIf | call | ret => cases h
  | _ =>
    obtain rfl := Option.some.inj h
    rfl

/-- A register instruction leaves stack and memory as they are, and fails only
if it is a division. -/
theorem Machine.exec_inRegisters (symbols : String → MachineWord) (m : Machine) {i : Instr}
    (hi : i.inRegisters = true) :
    (∃ r, i = .idiv r ∧ m.exec symbols i = none) ∨
      ∃ m', m.exec symbols i = some m' ∧ m.SameFrame m' := by
  have hset : ∀ (m : Machine) {r : Register} (w : MachineWord), r.isGeneral = true →
      m.SameFrame (m.setReg r w) := by
    intro m r w hr
    cases r with
    | esp | ebp => cases hr
    | _ => exact ⟨rfl, rfl, rfl⟩
  cases i with
  | mov r o => exact .inr ⟨_, rfl, hset m _ hi⟩
  | arith op r o =>
    cases op with
    | cmp => exact .inr ⟨_, rfl, rfl, rfl, rfl⟩
    | _ =>
      obtain ⟨hb, ht, hm⟩ := hset m (ArithOp.apply _ (m.registers r) (m.read symbols o)) hi
      exact .inr ⟨_, rfl, hb, ht, hm⟩
  | neg r =>
    obtain ⟨hb, ht, hm⟩ := hset m (-m.registers r) hi
    exact .inr ⟨_, rfl, hb, ht, hm⟩
  | xchg a b =>
    obtain ⟨ha, hb⟩ := Bool.and_eq_true_iff.mp hi
    obtain ⟨hb₁, ht₁, hm₁⟩ := hset m (m.registers b) ha
    obtain ⟨hb₂, ht₂, hm₂⟩ := hset (m.setReg a (m.registers b)) (m.registers a) hb
    exact .inr ⟨_, rfl, hb₂.trans hb₁, ht₂.trans ht₁, hm₂.trans hm₁⟩
  | cdq => exact .inr ⟨_, rfl, hset m _ rfl⟩
  | idiv r =>
    by_cases h : m.exec symbols (.idiv r) = none
    · exact .inl ⟨r, rfl, h⟩
    · obtain ⟨m', hm'⟩ := Option.ne_none_iff_exists'.mp h
      refine .inr ⟨m', hm', ?_⟩
      simp only [exec, divide] at hm'
      split at hm'
      · cases hm'
      · obtain rfl := Option.some.inj hm'
        exact ⟨rfl, rfl, rfl⟩
  | _ => cases hi

namespace Program

variable {p : Program} {m : Machine} {rest : Listing}

theorem step_passed {line : Line Instr} (h : ∀ i, line ≠ .instr i) :
    p.step ⟨line :: rest, m⟩ = some ⟨rest, m⟩ := by
  cases line with
  | instr i => exact absurd rfl (h i)
  | _ => rfl

theorem step_instr {i : Instr} (hjmp : ∀ l, i ≠ .jmp l) (hjump : ∀ c l, i ≠ .jumpIf c l) :
    p.step ⟨.instr i :: rest, m⟩ = (m.exec p.symbols i).map fun m' => ⟨rest, m'⟩ := by
  cases i with
  | jmp l => exact absurd rfl (hjmp l)
  | jumpIf c l => exact absurd rfl (hjump c l)
  | _ => rfl

theorem step_inRegisters {i : Instr} (h : i.inRegisters = true) :
    p.step ⟨.instr i :: rest, m⟩ = (m.exec p.symbols i).map fun m' => ⟨rest, m'⟩ :=
  step_instr (fun l hi => by rw [hi] at h; cases h) (fun c l hi => by rw [hi] at h; cases h)

/-- A step leaves all words but the one that it writes. -/
theorem memory_of_step {c c' : Config} (h : p.step c = some c') {x : MachineWord}
    (hx : c.writes? p.symbols ≠ some x) : c'.machine.memory x = c.machine.memory x := by
  have hgoto : ∀ {l : Label} {m : Machine}, p.goto l m = some c' → c'.machine = m := by
    intro l m hg
    obtain ⟨code, -, rfl⟩ := Option.map_eq_some_iff.mp hg
    rfl
  obtain ⟨_ | ⟨line, rest⟩, m⟩ := c
  · cases h
  cases line with
  | instr i =>
    by_cases hj : (∃ l, i = .jmp l) ∨ ∃ c l, i = .jumpIf c l
    · rcases hj with ⟨l, rfl⟩ | ⟨cond, l, rfl⟩
      · rw [hgoto h]
      · simp only [step] at h
        split at h
        · cases h
        · split at h
          · rw [hgoto h]
          · obtain rfl := Option.some.inj h
            rfl
    · rw [not_or, not_exists, not_exists] at hj
      rw [step_instr hj.1 fun c l hi => hj.2 c ⟨l, hi⟩] at h
      obtain ⟨m', hm', rfl⟩ := Option.map_eq_some_iff.mp h
      exact Machine.memory_of_exec hm' hx
  | _ =>
    obtain rfl := Option.some.inj h
    rfl

/-- A run from `start`, with what it went through, the last first. -/
inductive Visits (p : Program) (start : Config) : List Config → Config → Prop
  | start : Visits p start [] start
  | step {past c c'} (h : Visits p start past c) (hs : p.step c = some c') :
    Visits p start (c :: past) c'

end Program

namespace Config

/-- The saves of a past that have not been taken back, the last first. -/
def openPushes : List Config → List Config
  | [] => []
  | c :: past =>
    match c.code with
    | .instr (.push .eax) :: _ => c :: openPushes past
    | .instr (.pop .ebx) :: _ => (openPushes past).tail
    | _ => openPushes past

/-- The marks of the code follow the saves of the run. -/
theorem map_code_openPushes {past : List Config} {mark : Mark} (c : Config)
    (h : (openPushes past).map (·.code) = mark.waiting) :
    (openPushes (c :: past)).map (·.code) = (mark.next c.code).waiting := by
  rw [openPushes]
  split
  · rename_i rest hc
    rw [hc, Mark.next, List.map_cons, hc, h]
  · rename_i rest hc
    rw [hc, Mark.next, List.map_tail, h]
  · rename_i hpush hpop
    rw [h, Mark.next.eq_def]
    split
    · rename_i rest hc
      exact absurd hc (hpush rest)
    · rename_i rest hc
      exact absurd hc (hpop rest)
    · rfl
    · rfl
    · rfl

theorem openPushes_passed {line : Line Instr} {rest : Listing} {m : Machine} {past : List Config}
    (h : ∀ i, line ≠ .instr i) : openPushes (⟨line :: rest, m⟩ :: past) = openPushes past := by
  cases line with
  | instr i => exact absurd rfl (h i)
  | _ => rfl

theorem openPushes_inRegisters {i : Instr} {rest : Listing} {m : Machine} {past : List Config}
    (h : i.inRegisters = true) : openPushes (⟨.instr i :: rest, m⟩ :: past) = openPushes past := by
  cases i with
  | push | pop => cases h
  | _ => rfl

end Config

/-- A comparison counts until the next instruction that changes the flags. -/
theorem Machine.isSome_compared_of_exec {symbols : String → MachineWord} {m m' : Machine} {i : Instr}
    {mark : Mark} {rest : Listing} (h : m.exec symbols i = some m')
    (hm : mark.tested = true → m.compared.isSome = true)
    (ht : (mark.next (.instr i :: rest)).tested = true) : m'.compared.isSome = true := by
  cases i with
  | mov r o =>
    obtain rfl := Option.some.inj h
    exact hm ht
  | push r | pop r => cases r <;> cases ht
  | arith op r o =>
    cases op with
    | cmp =>
      obtain rfl := Option.some.inj h
      rfl
    | _ => cases ht
  | _ => cases ht

/-! ### The words of a call -/

namespace Routine

/-- The words that a call may write: what it takes below the return address, and
the words of the declared parameters. -/
def MayWrite (r : Routine) (m : Machine) (x : MachineWord) : Prop :=
  (x.toNat + wordSize ≤ (m.registers .esp).toNat ∧
    (m.registers .esp).toNat ≤ x.toNat + wordSize * r.stackWords) ∨
  ∃ i, r.firstArgument ≤ i ∧ i < r.argumentWords ∧
    x = m.registers .esp + BitVec.ofNat 32 (wordSize * (1 + i))

/-- The local variables and the declared parameters. -/
def Owns (r : Routine) : Slot → Prop
  | .localVar k => k < r.body.localCount
  | .argument i => r.firstArgument ≤ i ∧ i < r.argumentWords

theorem Owns.has {r : Routine} {s : Slot} (h : r.Owns s) (m : Machine) :
    (r.activation m).Has (.slot s) := by
  cases s with
  | localVar k => exact h
  | argument i => exact h.2

section
variable {r : Routine} {args : List Value} {m : Machine}

/-- The words below the return address are the saved frame pointer, the local
variables and the operands. -/
theorem CalledWith.mayWrite_below (h : r.CalledWith args m) {q : Cell}
    (hq : (r.activation m).Has q) (ho : (r.activation m).offset q ≤ 0) :
    r.MayWrite m ((r.activation m).address q) := by
  have hat := Activation.toNat_address h.fits hq
  have hbelow := h.below
  rw [h.base_toNat] at hat
  simp only [stackWords, wordSize] at hat hbelow
  refine .inl ?_
  generalize ((r.activation m).address q).toNat = x at hat ⊢
  simp only [stackWords, wordSize]
  rcases q with (i | k) | j | _ | _ <;>
    simp only [Activation.Has, activation, Activation.offset, wordSize] at hat hq ho <;> omega

theorem CalledWith.mayWrite_slot (h : r.CalledWith args m) {s : Slot} (hs : r.Owns s) :
    r.MayWrite m ((r.activation m).address (.slot s)) := by
  cases s with
  | localVar k =>
    refine h.mayWrite_below (hs.has m) ?_
    simp only [Activation.offset, wordSize]
    omega
  | argument i => exact .inr ⟨i, hs.1, hs.2, r.address_argument m i⟩

/-- Above the stack pointer of the call there are the declared parameters only. -/
theorem CalledWith.argument_of_mayWrite (h : r.CalledWith args m) {k : Nat}
    (hk : k < 1 + r.argumentWords)
    (hw : r.MayWrite m (m.registers .esp + BitVec.ofNat 32 (wordSize * k))) :
    1 + r.firstArgument ≤ k := by
  have habove := h.above
  simp only [wordSize] at habove
  rcases hw with ⟨hbelow, -⟩ | ⟨i, hfirst, hlast, he⟩
  · simp only [wordSize, BitVec.toNat_add, BitVec.toNat_ofNat] at hbelow
    omega
  · have hsame := congrArg BitVec.toNat he
    simp only [wordSize, BitVec.toNat_add, BitVec.toNat_ofNat] at hsame
    omega

theorem CalledWith.not_mayWrite_returnAddress (h : r.CalledWith args m) :
    ¬ r.MayWrite m (m.registers .esp) := by
  intro hw
  have hle := h.argument_of_mayWrite (k := 0) (by omega) (by simpa using hw)
  omega

theorem CalledWith.not_mayWrite_receiver (h : r.CalledWith args m) (hi : r.isInstance = true) :
    ¬ r.MayWrite m (m.registers .esp + BitVec.ofNat 32 wordSize) := by
  intro hw
  have hfirst : r.firstArgument = 1 := if_pos hi
  have hle := h.argument_of_mayWrite (k := 1) (by rw [argumentWords]; omega) (by simpa using hw)
  omega

/-- The operands that wait are in memory where they were saved. -/
def Stacks (r : Routine) (m : Machine) (memory : MachineWord → MachineWord) : List Config → Prop
  | [] => True
  | c :: outer =>
    c.machine.registers .esp - BitVec.ofNat 32 wordSize =
      (r.activation m).address (.operand outer.length) ∧
    memory ((r.activation m).address (.operand outer.length)) = c.machine.registers .eax ∧
    Stacks r m memory outer

theorem Stacks.congr {memory memory' : MachineWord → MachineWord} : ∀ {saves : List Config},
    r.Stacks m memory saves → (∀ j < saves.length,
      memory' ((r.activation m).address (.operand j)) =
        memory ((r.activation m).address (.operand j))) → r.Stacks m memory' saves
  | [], _, _ => trivial
  | _ :: outer, h, hsame => by
    obtain ⟨hat, hword, h⟩ := h
    refine ⟨hat, (hsame outer.length (Nat.lt_succ_self _)).trans hword, h.congr fun j hj => ?_⟩
    exact hsame j (Nat.lt_succ_of_lt hj)

/-- What holds of memory once the frame pointer of the caller is saved. -/
structure Keeps (r : Routine) (m m' : Machine) : Prop where
  saved : m'.memory ((r.activation m).address .savedBase) = m.registers .ebp
  kept : ∀ x, ¬ r.MayWrite m x → m'.memory x = m.memory x

/-- A machine in the body of a routine that `m` entered, while operands wait. -/
structure Holds (r : Routine) (m : Machine) (saves : List Config) (m' : Machine) : Prop
    extends r.Keeps m m' where
  base : m'.registers .ebp = (r.activation m).base
  top : m'.registers .esp =
    (r.activation m).base - BitVec.ofNat 32 (wordSize * (r.body.localCount + saves.length))
  room : saves.length ≤ Stmt.operandDepthAll r.body.statements
  operands : r.Stacks m m'.memory saves

theorem Holds.top_toNat {saves : List Config} {m' : Machine} (h : r.Holds m saves m')
    (hcall : r.CalledWith args m) :
    (m'.registers .esp).toNat + wordSize * r.body.localCount + wordSize * saves.length =
      (m'.registers .ebp).toNat := by
  have hbase := hcall.base_toNat
  have hbelow := hcall.below
  have hroom := h.room
  rw [h.base, h.top]
  simp only [stackWords, wordSize] at hbase hbelow ⊢
  simp only [BitVec.toNat_sub, BitVec.toNat_ofNat]
  omega

/-- The chart of a routine's body, and of the label behind it. -/
def chart (r : Routine) (body : Listing) (exit : Label) : Chart where
  points := (Mark.mk [] false).points (body ++ [.label exit]) (epilogue exit).tail
  writable := r.Owns
  room := Stmt.operandDepthAll r.body.statements

/-- The code of a routine in a program. -/
structure IsIn (r : Routine) (p : Program) (body : Listing) (exit : Label) : Prop where
  lines : p.lines = r.entry r.body.localCount ++ (body ++ epilogue exit)
  labels : p.lines.labels.Nodup
  depths : (r.chart body exit).points.map (·.2.depth) =
    Stmt.savedOperandsAll r.body.statements ++ [0]
  ends : (Mark.mk [] false).after (body ++ [.label exit]) (epilogue exit).tail = ⟨[], false⟩
  admits : ∀ q ∈ (r.chart body exit).points, (r.chart body exit).Admits q.1 q.2

theorem isIn_of_gives {n n' : Nat} {u : Unit} {p : Program} (h : r.emit.Gives n p.lines n' u) :
    ∃ body, r.IsIn p body (.temporary n) := by
  obtain ⟨body, f', hcode, hlocals, hlines⟩ := code_of_gives h
  have hexit : (Mark.mk [] false).points (body ++ [.label (.temporary n)])
      (epilogue (.temporary n)).tail = (Mark.mk [] false).points body (epilogue (.temporary n)) ++
        [(epilogue (.temporary n), ⟨[], false⟩)] := by
    rw [Mark.points_append, hcode.after]
    rfl
  refine ⟨body, hlines, labels_nodup h, ?_, ?_, ?_⟩
  · rw [chart, hexit, List.map_append, hcode.map_depth]
    rfl
  · rw [Mark.after_append, hcode.after]
    rfl
  · have hpoints : (r.chart body (.temporary n)).points = _ := hexit
    have hlast : (.label (.temporary n) :: (epilogue (.temporary n)).tail, ⟨[], false⟩) ∈
        (r.chart body (.temporary n)).points := by
      rw [hpoints]
      exact List.mem_append_right _ List.mem_cons_self
    rw [hpoints, List.forall_mem_append]
    refine ⟨hcode.admits r.frame_placed ?_ ?_ _ (Nat.le_refl _) ?_ hlast, ?_⟩
    · intro b hb
      have hmem := List.mem_reverse.mp hb
      exact ⟨(List.mem_zipIdx hmem).1, lt_argumentWords hmem⟩
    · intro k hk
      exact Nat.lt_of_lt_of_eq hk hlocals
    · rw [hpoints]
      exact List.subset_append_left _ _
    · exact List.forall_mem_cons.mpr ⟨.passed (by simp), List.forall_mem_nil _⟩

/-! ### Steps in the body -/

section
variable {p : Program} {body : Listing} {exit : Label} {past : List Config} {c c' : Config}
  {mark : Mark} {saves : List Config} {m' : Machine}

/-- A machine at a point of the body: the operands of its mark wait. -/
structure InBody (r : Routine) (m : Machine) (body : Listing) (exit : Label) (past : List Config)
    (c : Config) (mark : Mark) : Prop extends r.Holds m (Config.openPushes past) c.machine where
  point : (c.code, mark) ∈ (r.chart body exit).points
  waiting : (Config.openPushes past).map (·.code) = mark.waiting
  tested : mark.tested = true → c.machine.compared.isSome = true

theorem InBody.depth_eq (h : r.InBody m body exit past c mark) :
    (Config.openPushes past).length = mark.depth := by
  rw [Mark.depth, ← h.waiting, List.length_map]

theorem Holds.sameFrame (h : r.Holds m saves c.machine) (hs : c.machine.SameFrame m') :
    r.Holds m saves m' where
  saved := by rw [hs.memory, h.saved]
  kept x hx := by rw [hs.memory, h.kept x hx]
  base := hs.base.trans h.base
  top := hs.top.trans h.top
  room := h.room
  operands := hs.memory ▸ h.operands

/-- A word written at a place of the call where nothing waits. -/
theorem Holds.setMem (h : r.Holds m saves m') (hcall : r.CalledWith args m) {q : Cell}
    (hq : (r.activation m).Has q) (hw : r.MayWrite m ((r.activation m).address q))
    (hne : q ≠ .savedBase) (hfree : ∀ j < saves.length, q ≠ .operand j) (w : MachineWord) :
    r.Holds m saves (m'.setMem ((r.activation m).address q) w) where
  saved := by
    rw [Machine.memory_setMem, if_neg, h.saved]
    exact fun he => hne (Activation.address_inj hcall.fits hq (q := .savedBase) trivial he.symm)
  kept x hx := by
    rw [Machine.memory_setMem, if_neg, h.kept x hx]
    rintro rfl
    exact hx hw
  base := h.base
  top := h.top
  room := h.room
  operands := by
    refine h.operands.congr fun j hj => ?_
    rw [Machine.memory_setMem, if_neg]
    intro he
    exact hfree j hj (Activation.address_inj hcall.fits hq
      (q := .operand j) (Nat.lt_of_lt_of_le hj h.room) he.symm)

theorem Holds.push (h : r.Holds m saves c.machine) (hcall : r.CalledWith args m)
    (hroom : saves.length < Stmt.operandDepthAll r.body.statements) :
    r.Holds m (c :: saves) ((c.machine.setReg .esp
      (c.machine.registers .esp - BitVec.ofNat 32 wordSize)).setMem
      (c.machine.registers .esp - BitVec.ofNat 32 wordSize) (c.machine.registers .eax)) := by
  have hat : c.machine.registers .esp - BitVec.ofNat 32 wordSize =
      (r.activation m).address (.operand saves.length) := by
    rw [h.top]
    exact (r.activation m).operand_address saves.length
  have hq : (r.activation m).Has (.operand saves.length) := hroom
  have hw : r.MayWrite m ((r.activation m).address (.operand saves.length)) := by
    refine hcall.mayWrite_below hq ?_
    simp only [Activation.offset, wordSize]
    omega
  have hset := h.setMem hcall hq hw (by simp) (fun j hj => by simp; omega)
    (c.machine.registers .eax)
  refine ⟨⟨?_, ?_⟩, h.base, ?_, hroom, hat, ?_, ?_⟩
  · rw [hat]
    exact hset.saved
  · rw [hat]
    exact hset.kept
  · rw [hat]
    rfl
  · rw [hat]
    exact if_pos rfl
  · rw [hat]
    exact hset.operands

theorem Holds.pop {c₀ : Config} (h : r.Holds m (c₀ :: saves) m') (w : MachineWord) :
    r.Holds m saves ((m'.setReg .esp (m'.registers .esp + BitVec.ofNat 32 wordSize)).setReg .ebx w) := by
  refine ⟨⟨h.saved, h.kept⟩, h.base, ?_, Nat.le_of_succ_le h.room, h.operands.2.2⟩
  have htop := h.top
  have hwords : wordSize * (r.body.localCount + (saves.length + 1)) =
      wordSize * (r.body.localCount + saves.length) + wordSize := rfl
  rw [List.length_cons, hwords, BitVec.ofNat_add, ← BitVec.sub_sub] at htop
  show m'.registers .esp + BitVec.ofNat 32 wordSize = _
  rw [htop, BitVec.sub_add_cancel]

/-- Where a step in the body leads: to a point of the body, or behind its label. -/
def Arrives (r : Routine) (m : Machine) (body : Listing) (exit : Label) (past : List Config)
    (c : Config) : Prop :=
  (∃ mark, r.InBody m body exit past c mark) ∨
    (c.code = (epilogue exit).tail ∧ Config.openPushes past = [] ∧ r.Holds m [] c.machine)

theorem InBody.advance (hin : r.IsIn p body exit) (h : r.InBody m body exit past c mark)
    {line : Line Instr} {rest : Listing} (hcode : c.code = line :: rest)
    (hholds : r.Holds m (Config.openPushes (c :: past)) m')
    (htested : (mark.next (line :: rest)).tested = true → m'.compared.isSome = true) :
    r.Arrives m body exit (c :: past) ⟨rest, m'⟩ := by
  have hwaiting := Config.map_code_openPushes c h.waiting
  have hpoint := h.point
  rw [hcode] at hwaiting hpoint
  rcases Mark.mem_points_next hpoint with hnext | ⟨hrest, hnext⟩
  · exact .inl ⟨_, hholds, hnext, hwaiting, htested⟩
  · rw [hin.ends] at hnext
    rw [hnext, List.map_eq_nil_iff] at hwaiting
    exact .inr ⟨hrest, hwaiting, hwaiting ▸ hholds⟩

theorem IsIn.suffix (hin : r.IsIn p body exit) {q : Listing × Mark}
    (hq : q ∈ (r.chart body exit).points) : q.1 <:+ p.lines := by
  have hsuffix := Mark.suffix_of_mem_points hq
  rw [List.append_assoc] at hsuffix
  rw [hin.lines]
  exact hsuffix.trans (List.suffix_append _ _)

theorem InBody.jump (hin : r.IsIn p body exit) (h : r.InBody m body exit past c mark)
    (hopen : Config.openPushes (c :: past) = Config.openPushes past) {l : Label} {rest' : Listing}
    (htarget : (.label l :: rest', ⟨mark.waiting, false⟩) ∈ (r.chart body exit).points)
    (hs : p.goto l c.machine = some c') : r.Arrives m body exit (c :: past) c' := by
  rw [Program.goto, Listing.from?_of_suffix hin.labels (hin.suffix htarget)] at hs
  obtain rfl := Option.some.inj hs
  refine .inl ⟨⟨mark.waiting, false⟩, hopen ▸ h.toHolds, htarget, ?_, fun ht => absurd ht (by simp)⟩
  rw [hopen, h.waiting]

/-- One step in the body. -/
theorem InBody.step (hin : r.IsIn p body exit) (hcall : r.CalledWith args m)
    (h : r.InBody m body exit past c mark) (hs : p.step c = some c') :
    r.Arrives m body exit (c :: past) c' := by
  have hadmits := hin.admits _ h.point
  obtain ⟨code, mc⟩ := c
  cases hadmits with
  | passed hline =>
    rw [Program.step_passed hline] at hs
    obtain rfl := Option.some.inj hs
    refine h.advance hin rfl ?_ ?_
    · rw [Config.openPushes_passed hline]
      exact h.toHolds
    · intro ht
      rw [Mark.next_passed hline] at ht
      cases ht
  | computes hi =>
    rcases Machine.exec_inRegisters p.symbols mc hi with ⟨d, rfl, hnone⟩ | ⟨m', hm', hsame⟩
    · rw [Program.step_inRegisters hi, hnone] at hs
      cases hs
    · rw [Program.step_inRegisters hi, hm'] at hs
      obtain rfl := Option.some.inj hs
      refine h.advance hin rfl ?_ (Machine.isSome_compared_of_exec hm' h.tested)
      rw [Config.openPushes_inRegisters hi]
      exact h.toHolds.sameFrame hsame
  | @writes s rest mark hw =>
    obtain rfl := Option.some.inj hs
    refine h.advance hin rfl ?_ (fun ht => by cases ht)
    have hat : mc.address p.symbols (.slot s) = (r.activation m).address (.slot s) :=
      congrArg s.address h.base
    show r.Holds m (Config.openPushes past) (mc.setMem (mc.address p.symbols (.slot s)) _)
    rw [hat]
    exact h.toHolds.setMem hcall (hw.has m) (hcall.mayWrite_slot hw) (by simp) (by simp) _
  | saves hroom =>
    obtain rfl := Option.some.inj hs
    refine h.advance hin rfl ?_ (fun ht => by cases ht)
    exact h.toHolds.push hcall (h.depth_eq ▸ hroom)
  | restores hb hwaiting =>
    obtain rfl := Option.some.inj hs
    refine h.advance hin rfl ?_ (fun ht => by cases ht)
    have hholds := h.toHolds
    have hopen := h.waiting
    rw [hwaiting] at hopen
    obtain ⟨c₀, outer, hsaves, -, -⟩ := List.map_eq_cons_iff.mp hopen
    rw [hsaves] at hholds
    show r.Holds m (Config.openPushes past).tail _
    rw [hsaves]
    exact hholds.pop _
  | jumps htarget => exact h.jump hin rfl htarget hs
  | branches ht htarget =>
    obtain ⟨⟨a, b⟩, hcompared⟩ := Option.isSome_iff_exists.mp (h.tested ht)
    simp only at hcompared
    simp only [Program.step, hcompared] at hs
    split at hs
    · exact h.jump hin rfl htarget hs
    · obtain rfl := Option.some.inj hs
      exact h.advance hin rfl h.toHolds (fun ht => by cases ht)

/-- Only a division that cannot be done stops the body. -/
theorem InBody.faults (hin : r.IsIn p body exit) (h : r.InBody m body exit past c mark)
    (hs : p.step c = none) : c.Faults p.symbols := by
  have hadmits := hin.admits _ h.point
  obtain ⟨code, mc⟩ := c
  have hgoto : ∀ {l : Label} {rest' : Listing} {mark : Mark},
      (.label l :: rest', mark) ∈ (r.chart body exit).points → p.goto l mc ≠ none := by
    intro l rest' mark htarget
    rw [Program.goto, Listing.from?_of_suffix hin.labels (hin.suffix htarget)]
    simp
  cases hadmits with
  | passed hline =>
    rw [Program.step_passed hline] at hs
    cases hs
  | computes hi =>
    rcases Machine.exec_inRegisters p.symbols mc hi with ⟨d, rfl, hnone⟩ | ⟨m', hm', -⟩
    · exact ⟨d, _, rfl, hnone⟩
    · rw [Program.step_inRegisters hi, hm'] at hs
      cases hs
  | writes _ | saves _ | restores _ _ => cases hs
  | jumps htarget => exact absurd hs (hgoto htarget)
  | branches ht htarget =>
    obtain ⟨⟨a, b⟩, hcompared⟩ := Option.isSome_iff_exists.mp (h.tested ht)
    simp only at hcompared
    simp only [Program.step, hcompared] at hs
    split at hs
    · exact absurd hs (hgoto htarget)
    · cases hs

/-- What the body writes are words of the call, but not the saved frame pointer. -/
theorem InBody.writes (hin : r.IsIn p body exit) (hcall : r.CalledWith args m)
    (h : r.InBody m body exit past c mark) {x : MachineWord} (hx : c.writes? p.symbols = some x) :
    r.MayWrite m x ∧ x ≠ (r.activation m).address .savedBase := by
  have hadmits := hin.admits _ h.point
  obtain ⟨code, mc⟩ := c
  cases hadmits with
  | @passed line rest mark hline =>
    cases line with
    | instr i => exact absurd rfl (hline i)
    | _ => cases hx
  | @computes i rest mark hi =>
    cases i with
    | push | store | storeWord => cases hi
    | _ => cases hx
  | @writes s rest mark hw =>
    have hat : x = (r.activation m).address (.slot s) := by
      rw [← Option.some.inj hx]
      exact congrArg s.address h.base
    rw [hat]
    refine ⟨hcall.mayWrite_slot hw, fun he => ?_⟩
    cases Activation.address_inj hcall.fits (hw.has m) (q := .savedBase) trivial he
  | saves hroom =>
    have hq : (r.activation m).Has (.operand (Config.openPushes past).length) :=
      h.depth_eq ▸ hroom
    have hat : x = (r.activation m).address (.operand (Config.openPushes past).length) := by
      rw [← Option.some.inj hx, h.top]
      exact (r.activation m).operand_address _
    rw [hat]
    refine ⟨hcall.mayWrite_below hq ?_, fun he => ?_⟩
    · simp only [Activation.offset, wordSize]
      omega
    · cases Activation.address_inj hcall.fits hq (q := .savedBase) trivial he
  | restores _ _ | jumps _ | branches _ _ => cases hx

/-- A pop takes back what its push has saved. -/
theorem InBody.pops (hin : r.IsIn p body exit) (h : r.InBody m body exit past c mark)
    {rest : Listing} (hcode : c.code = .instr (.pop .ebx) :: rest) :
    ∃ c₀ outer operand, Config.openPushes past = c₀ :: outer ∧
      c₀.code = .instr (.push .eax) :: (operand ++ c.code) ∧ Listing.Balanced operand ∧
      c₀.writes? p.symbols = some (c.machine.registers .esp) ∧
      c.machine.memory (c.machine.registers .esp) = c₀.machine.registers .eax := by
  have hadmits := hin.admits _ h.point
  obtain ⟨code, mc⟩ := c
  obtain rfl : code = _ := hcode
  cases hadmits with
  | passed hline => exact absurd rfl (hline _)
  | computes hi => cases hi
  | @restores operand rest mark outer hb hwaiting =>
    have hopen := h.waiting
    have hstacks := h.operands
    have htop := h.top
    rw [hwaiting] at hopen
    obtain ⟨c₀, outer', hsaves, hc₀, -⟩ := List.map_eq_cons_iff.mp hopen
    rw [hsaves] at hstacks htop
    obtain ⟨hat, hword, -⟩ := hstacks
    have hsame : mc.registers .esp = (r.activation m).address (.operand outer'.length) := htop
    refine ⟨c₀, outer', operand, hsaves, hc₀, hb, ?_, ?_⟩
    · rw [Config.writes?, hc₀]
      exact congrArg some (hat.trans hsame.symm)
    · exact (congrArg mc.memory hsame).trans hword

/-! ### The whole call -/

/-- The machine once the frame pointer of the caller is saved. -/
def saving (r : Routine) (m : Machine) : Machine :=
  (m.setReg .esp (r.activation m).base).setMem (r.activation m).base (m.registers .ebp)

theorem CalledWith.keeps_saving (h : r.CalledWith args m) : r.Keeps m (r.saving m) where
  saved := if_pos rfl
  kept x hx := by
    refine if_neg ?_
    rintro rfl
    exact hx (h.mayWrite_below (q := .savedBase) trivial (Int.le_refl 0))

/-- Where a call can be: in the entry of the routine, in its body or at its end. -/
inductive Stage (r : Routine) (m : Machine) (body : Listing) (exit : Label) :
    List Config → Config → Prop
  | entering {past : List Config} (hopen : Config.openPushes past = []) :
    Stage r m body exit past ⟨(r.entry r.body.localCount).drop 3 ++ (body ++ epilogue exit), m⟩
  | pushing {past : List Config} (hopen : Config.openPushes past = []) :
    Stage r m body exit past ⟨(r.entry r.body.localCount).drop 4 ++ (body ++ epilogue exit), m⟩
  | basing {past : List Config} (hopen : Config.openPushes past = []) :
    Stage r m body exit past
      ⟨(r.entry r.body.localCount).drop 5 ++ (body ++ epilogue exit), r.saving m⟩
  | reserving {past : List Config} (hopen : Config.openPushes past = [])
    (hlocals : r.body.localCount ≠ 0) :
    Stage r m body exit past ⟨reserve r.body.localCount ++ (body ++ epilogue exit),
      (r.saving m).setReg .ebp (r.activation m).base⟩
  | inBody {past : List Config} {c : Config} {mark : Mark} (h : r.InBody m body exit past c mark) :
    Stage r m body exit past c
  | closing {past : List Config} {c : Config} (hcode : c.code = (epilogue exit).tail)
    (h : r.Holds m [] c.machine) : Stage r m body exit past c
  | restoring {past : List Config} {c : Config} (hcode : c.code = (epilogue exit).drop 2)
    (h : r.Keeps m c.machine) (htop : c.machine.registers .esp = (r.activation m).base) :
    Stage r m body exit past c
  | returning {past : List Config} {c : Config} (hcode : c.code = [.instr .ret])
    (h : r.Keeps m c.machine) (htop : c.machine.registers .esp = m.registers .esp)
    (hbase : c.machine.registers .ebp = m.registers .ebp) : Stage r m body exit past c

theorem stage_body (hopen : Config.openPushes past = [])
    (h : r.Holds m [] m') : r.Stage m body exit past ⟨body ++ epilogue exit, m'⟩ := by
  have hpoint : (body ++ epilogue exit, ⟨[], false⟩) ∈ (r.chart body exit).points := by
    have hcode : body ++ epilogue exit = (body ++ [.label exit]) ++ (epilogue exit).tail := by
      rw [List.append_assoc]
      rfl
    rw [hcode]
    exact Mark.mem_points_self _ (by simp) _
  exact .inBody ⟨hopen ▸ h, hpoint, by rw [hopen]; rfl, fun ht => by cases ht⟩

theorem CalledWith.holds_reserved (h : r.CalledWith args m) (hm : m'.memory = (r.saving m).memory)
    (hb : m'.registers .ebp = (r.activation m).base)
    (ht : m'.registers .esp =
      (r.activation m).base - BitVec.ofNat 32 (wordSize * r.body.localCount)) :
    r.Holds m [] m' :=
  ⟨⟨by rw [hm, h.keeps_saving.saved], fun x hx => by rw [hm, h.keeps_saving.kept x hx]⟩, hb, ht,
    Nat.zero_le _, trivial⟩

/-- One step of a call. -/
theorem Stage.step (hin : r.IsIn p body exit) (hcall : r.CalledWith args m)
    (h : r.Stage m body exit past c) (hs : p.step c = some c') :
    r.Stage m body exit (c :: past) c' := by
  cases h with
  | entering hopen =>
    obtain rfl := Option.some.inj hs
    exact .pushing hopen
  | pushing hopen =>
    obtain rfl := Option.some.inj hs
    exact .basing hopen
  | basing hopen =>
    obtain rfl : c' = ⟨reserve r.body.localCount ++ (body ++ epilogue exit),
      (r.saving m).setReg .ebp (r.activation m).base⟩ := (Option.some.inj hs).symm
    by_cases hl : r.body.localCount = 0
    · rw [reserve, if_pos hl]
      refine stage_body hopen (hcall.holds_reserved rfl rfl ?_)
      rw [hl]
      exact (BitVec.sub_zero _).symm
    · exact .reserving hopen hl
  | reserving hopen hlocals =>
    rw [reserve, if_neg hlocals] at hs ⊢
    obtain rfl := Option.some.inj hs
    refine stage_body hopen (hcall.holds_reserved rfl rfl ?_)
    exact congrArg ((r.activation m).base - ·) (BitVec.ofInt_natCast 32 _)
  | inBody h =>
    rcases h.step hin hcall hs with ⟨mark, h⟩ | ⟨hcode, hopen, h⟩
    · exact .inBody h
    · exact .closing hcode h
  | closing hcode h =>
    obtain ⟨code, mc⟩ := c
    obtain rfl : code = _ := hcode
    obtain rfl := Option.some.inj hs
    exact .restoring rfl ⟨h.saved, h.kept⟩ h.base
  | restoring hcode h htop =>
    obtain ⟨code, mc⟩ := c
    obtain rfl : code = _ := hcode
    obtain rfl := Option.some.inj hs
    refine .returning rfl ⟨h.saved, h.kept⟩ ?_ ?_
    · have haddress := r.address_returnAddress m
      rw [Activation.address, ← htop] at haddress
      exact haddress
    · rw [← h.saved]
      exact congrArg mc.memory htop
  | returning hcode h htop hbase =>
    obtain ⟨code, mc⟩ := c
    obtain rfl : code = _ := hcode
    cases hs

/-- The whole run of a call. -/
theorem Stage.visits (hin : r.IsIn p body exit) (hcall : r.CalledWith args m) {start : Config}
    (hstart : r.Stage m body exit [] start) (h : p.Visits start past c) :
    r.Stage m body exit past c := by
  induction h with
  | start => exact hstart
  | step _ hs ih => exact ih.step hin hcall hs

/-- For each line from the end of the entry up to the label of the end, how many
operators around it have saved their left operands. -/
def savedOperands (r : Routine) : List Nat :=
  Stmt.savedOperandsAll r.body.statements ++ [0]

/-- What can be relied on in a state of a call that `m` entered. -/
structure Disciplined (r : Routine) (m : Machine) (p : Program) (body : Listing) (exit : Label)
    (past : List Config) (c : Config) : Prop where
  /-- In the body the stack holds the local variables and the saved operands. -/
  depth : ∀ k ≤ body.length, c.code = body.drop k ++ epilogue exit → ∃ d,
    r.savedOperands[k]? = some d ∧
    (c.machine.registers .esp).toNat + wordSize * r.body.localCount + wordSize * d =
      (c.machine.registers .ebp).toNat
  /-- A pop reads what the matching push has stored. -/
  pops : ∀ rest, c.code = .instr (.pop .ebx) :: rest → ∃ c₀ outer operand,
    Config.openPushes past = c₀ :: outer ∧
    c₀.code = .instr (.push .eax) :: (operand ++ c.code) ∧ Listing.Balanced operand ∧
    c₀.writes? p.symbols = some (c.machine.registers .esp) ∧
    c.machine.memory (c.machine.registers .esp) = c₀.machine.registers .eax
  /-- Writes go below the return address or to declared parameters. -/
  writes : ∀ x, c.writes? p.symbols = some x → r.MayWrite m x
  kept : ∀ x, ¬ r.MayWrite m x → c.machine.memory x = m.memory x
  /-- The saved frame pointer stays. -/
  saved : c.code <:+ body ++ epilogue exit →
    c.machine.memory (m.registers .esp - BitVec.ofNat 32 wordSize) = m.registers .ebp ∧
    c.writes? p.symbols ≠ some (m.registers .esp - BitVec.ofNat 32 wordSize)
  returns : c.AtReturn → c.machine.registers .esp = m.registers .esp ∧
    c.machine.registers .ebp = m.registers .ebp
  goesOn : p.step c = none → c.AtReturn ∨ c.Faults p.symbols

/-- The point of the body that the machine is at decides how many operands wait. -/
theorem InBody.depth (hin : r.IsIn p body exit) (hcall : r.CalledWith args m)
    (h : r.InBody m body exit past c mark) {k : Nat} (hk : k ≤ body.length)
    (hcode : c.code = body.drop k ++ epilogue exit) :
    ∃ d, r.savedOperands[k]? = some d ∧
      (c.machine.registers .esp).toNat + wordSize * r.body.localCount + wordSize * d =
        (c.machine.registers .ebp).toNat := by
  obtain ⟨i, hi⟩ := List.mem_iff_getElem?.mp h.point
  obtain ⟨hat, hlt⟩ := Mark.of_getElem?_points hi
  -- a place is given by how much of the code is left
  have hik : i = k := by
    have hlength := congrArg List.length (hat.symm.trans hcode)
    simp only [List.length_append, List.length_drop, List.length_cons, List.length_nil, epilogue,
      List.tail_cons] at hlength hlt
    omega
  refine ⟨mark.depth, ?_, ?_⟩
  · rw [savedOperands, ← hin.depths, List.getElem?_map, ← hik, hi]
    rfl
  · rw [← h.depth_eq]
    exact h.top_toNat hcall

theorem disciplined_entry {line : Line Instr} {ls : Listing}
    (hcode : c.code = line :: ls ++ (body ++ epilogue exit)) (hpop : line ≠ .instr (.pop .ebx))
    (hret : line ≠ .instr .ret) (hwrites : ∀ x, c.writes? p.symbols = some x → r.MayWrite m x)
    (hkept : ∀ x, ¬ r.MayWrite m x → c.machine.memory x = m.memory x) (hstep : p.step c ≠ none) :
    r.Disciplined m p body exit past c where
  depth k _ hk := by
    have hlength := congrArg List.length (hcode.symm.trans hk)
    simp only [List.length_append, List.length_cons, List.length_drop] at hlength
    omega
  pops rest hc := absurd (List.cons.inj (hcode.symm.trans hc)).1 hpop
  writes := hwrites
  kept := hkept
  saved hle := by
    have hlength := hle.length_le
    rw [hcode] at hlength
    simp only [List.length_append, List.length_cons] at hlength
    omega
  returns := by
    rintro ⟨rest, hc⟩
    exact absurd (List.cons.inj (hcode.symm.trans hc)).1 hret
  goesOn hs := absurd hs hstep

theorem InBody.disciplined (hin : r.IsIn p body exit) (hcall : r.CalledWith args m)
    (h : r.InBody m body exit past c mark) : r.Disciplined m p body exit past c where
  depth _ hk hcode := h.depth hin hcall hk hcode
  pops _ hcode := h.pops hin hcode
  writes _ hx := (h.writes hin hcall hx).1
  kept := h.kept
  saved _ := ⟨h.saved, fun hx => (h.writes hin hcall hx).2 rfl⟩
  returns := by
    rintro ⟨rest, hcode⟩
    have hadmits := hin.admits _ h.point
    rw [hcode] at hadmits
    cases hadmits with
    | passed hline => exact absurd rfl (hline _)
    | computes hi => cases hi
  goesOn hs := .inr (h.faults hin hs)

theorem disciplined_end (hlength : c.code.length < (epilogue exit).length)
    (hpop : ∀ rest, c.code ≠ .instr (.pop .ebx) :: rest) (hwrites : c.writes? p.symbols = none)
    (hkeeps : r.Keeps m c.machine)
    (hreturns : c.AtReturn → c.machine.registers .esp = m.registers .esp ∧
      c.machine.registers .ebp = m.registers .ebp)
    (hstep : p.step c = none → c.AtReturn) : r.Disciplined m p body exit past c where
  depth k _ hk := by
    rw [hk, List.length_append] at hlength
    omega
  pops rest hc := absurd hc (hpop rest)
  writes x hx := by
    rw [hwrites] at hx
    cases hx
  kept := hkeeps.kept
  saved _ := by
    refine ⟨hkeeps.saved, fun hx => ?_⟩
    rw [hwrites] at hx
    cases hx
  returns := hreturns
  goesOn hs := .inl (hstep hs)

theorem Stage.disciplined (hin : r.IsIn p body exit) (hcall : r.CalledWith args m)
    (h : r.Stage m body exit past c) : r.Disciplined m p body exit past c := by
  cases h with
  | entering hopen =>
    exact disciplined_entry rfl (by simp) (by simp) (fun x hx => by cases hx) (fun _ _ => rfl)
      (Option.some_ne_none _)
  | pushing hopen =>
    refine disciplined_entry rfl (by simp) (by simp) (fun x hx => ?_) (fun _ _ => rfl) ?_
    · rw [← Option.some.inj hx]
      exact hcall.mayWrite_below (q := .savedBase) trivial (Int.le_refl 0)
    · exact Option.some_ne_none _
  | basing hopen =>
    exact disciplined_entry rfl (by simp) (by simp) (fun x hx => by cases hx) hcall.keeps_saving.kept
      (Option.some_ne_none _)
  | reserving hopen hlocals =>
    rw [reserve, if_neg hlocals]
    exact disciplined_entry rfl (by simp) (by simp) (fun x hx => by cases hx) hcall.keeps_saving.kept
      (Option.some_ne_none _)
  | inBody h => exact h.disciplined hin hcall
  | closing hcode h =>
    obtain ⟨code, mc⟩ := c
    obtain rfl : code = _ := hcode
    refine disciplined_end (Nat.lt_succ_self 3) (by simp [epilogue]) rfl h.toKeeps ?_
      (fun hs => absurd hs (Option.some_ne_none _))
    rintro ⟨rest, he⟩
    simp [epilogue] at he
  | restoring hcode h htop =>
    obtain ⟨code, mc⟩ := c
    obtain rfl : code = _ := hcode
    refine disciplined_end (by simp [epilogue]) (by simp [epilogue]) rfl h ?_
      (fun hs => absurd hs (Option.some_ne_none _))
    rintro ⟨rest, he⟩
    simp [epilogue] at he
  | returning hcode h htop hbase =>
    obtain ⟨code, mc⟩ := c
    obtain rfl : code = _ := hcode
    exact disciplined_end (by simp [epilogue]) (by simp) rfl h (fun _ => ⟨htop, hbase⟩)
      (fun _ => ⟨[], rfl⟩)

end
end
end Routine

/-- In every state of every call of a routine whose code was generated, the stack
and the frame are as they should be: as deep as the point of the code says, with
the operands where their pops find them, and with the caller's words kept. -/
theorem Member.code_keeps_stack (member : Member) {owner : String} {r : Routine} {n : Nat}
    (hr : member.routine? owner = some r) (hok : (member.emit owner n).result = .ok ())
    {args : List Value} {m : Machine} (hcall : r.CalledWith args m)
    (symbols : String → MachineWord) :
    ∃ start body exit,
      Program.goto ⟨(member.emit owner n).lines, symbols⟩ (.symbol r.symbol) m = some start ∧
      (member.emit owner n).lines =
        r.entry r.body.localCount ++ (body ++ Routine.epilogue exit) ∧
      r.savedOperands.length = body.length + 1 ∧
      ¬ r.MayWrite m (m.registers .esp) ∧
      (r.isInstance = true → ¬ r.MayWrite m (m.registers .esp + BitVec.ofNat 32 wordSize)) ∧
      ∀ past c, Program.Visits ⟨(member.emit owner n).lines, symbols⟩ start past c →
        r.Disciplined m ⟨(member.emit owner n).lines, symbols⟩ body exit past c := by
  rw [Member.emit_of_routine? hr] at hok ⊢
  have hgives : r.emit.Gives n (r.emit n).lines (r.emit n).nextLabel () := by
    rw [Emit.Gives, ← hok]
  obtain ⟨body, hin⟩ := Routine.isIn_of_gives (p := ⟨(r.emit n).lines, symbols⟩) hgives
  have hstart : (r.entry r.body.localCount).drop 3 ++ (body ++ Routine.epilogue (.temporary n)) <:+
      (r.emit n).lines := by
    rw [show (r.emit n).lines = _ from hin.lines]
    exact Listing.after [_, _, _] (List.suffix_refl _)
  have hgoto : Program.goto ⟨(r.emit n).lines, symbols⟩ (.symbol r.symbol) m = some
      ⟨(r.entry r.body.localCount).drop 3 ++ (body ++ Routine.epilogue (.temporary n)), m⟩ := by
    rw [Program.goto, Listing.from?_of_suffix hin.labels hstart]
    rfl
  refine ⟨_, body, .temporary n, hgoto, hin.lines, ?_, hcall.not_mayWrite_returnAddress,
    hcall.not_mayWrite_receiver, fun past c hvisits => ?_⟩
  · rw [Routine.savedOperands, ← hin.depths, List.length_map, Routine.chart, Mark.length_points,
      List.length_append]
    rfl
  · exact (Routine.Stage.visits hin hcall (.entering rfl) hvisits).disciplined hin hcall

/-- A call of `sumDown` with 2 comes to its first sum with one operand saved, and
keeps the stack in order all the way. -/
theorem sumDown_stack : ((Member.method sumDown).emit "p.Sums" 0).result = .ok () ∧
    sumDownRoutine.CalledWith [.int 2] sumDownCall ∧
    sumDownRoutine.savedOperands = [0, 0, 0, 0, 0, 0, 0, 0, 0, 0, 0, 1, 1, 0, 0, 0, 0, 0, 0, 0, 0, 0, 0,
      0, 0, 0, 0, 1, 1, 0, 0, 0, 0, 0, 1, 1, 0, 0, 0, 0, 0, 0] ∧
    ∃ start body exit, Program.goto ⟨((Member.method sumDown).emit "p.Sums" 0).lines, fun _ => 0⟩
        (.symbol sumDownRoutine.symbol) sumDownCall = some start ∧
      ∀ past c, Program.Visits ⟨((Member.method sumDown).emit "p.Sums" 0).lines, fun _ => 0⟩
          start past c →
        sumDownRoutine.Disciplined sumDownCall
          ⟨((Member.method sumDown).emit "p.Sums" 0).lines, fun _ => 0⟩ body exit past c := by
  have hok : ((Member.method sumDown).emit "p.Sums" 0).result = .ok () := by rfl
  obtain ⟨start, body, exit, hgoto, -, -, -, -, hvisits⟩ :=
    Member.code_keeps_stack (.method sumDown) rfl hok sumDown_called fun _ => 0
  exact ⟨hok, sumDown_called, by decide, start, body, exit, hgoto, hvisits⟩

end ClassCompiler
