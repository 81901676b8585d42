import ClassCompiler.Proofs.Codegen.Machine

/-!
# Machines that allocate memory

The routines that fill tables call for memory. Of the routine that gives it only
a contract is known: it returns a block of the size that was asked for, which
shares no byte with memory in use, and it leaves memory in use as it is. It may
change every other register, and it need not return at all.

Next to the machine a process has the blocks that are in use. A store of a
process stays within bounds if it goes to a named cell, or through a register
into the block that the register points to, where that block has been allocated
by the process itself. A call that does not return may be one that asks for too
much; so the sizes are told that a process asks for, whether it gets them or not.

Key definitions: `Region`, `Allocation`, `Allocator`, `Process`, `Program.stepWith`,
`Process.StoresWithin`, `Process.AsksFor`, `Program.Completes`, `Program.Ensures`.

Key theorems: `Program.Ensures.bind`, `Program.Ensures.completes`,
`Program.CallCompletes.of_runFor`.
-/

namespace ClassCompiler

/-- Some bytes of memory in a row, up to the end of memory at most. -/
structure Region where
  base : MachineWord
  size : Nat
  fits : base.toNat + size ≤ 0x100000000

namespace Region

variable {a b : Region} {i j : Nat} {x y : MachineWord}

/-- The word at an address is in the block. -/
def Has (b : Region) (x : MachineWord) : Prop :=
  b.base.toNat ≤ x.toNat ∧ x.toNat + wordSize ≤ b.base.toNat + b.size

/-- No byte is in both blocks. -/
def Disjoint (a b : Region) : Prop :=
  ∀ n, a.base.toNat ≤ n → n < a.base.toNat + a.size → b.base.toNat ≤ n →
    ¬ n < b.base.toNat + b.size

/-- The address of a word of a block, by its place. -/
def word (b : Region) (i : Nat) : MachineWord :=
  b.base + BitVec.ofNat 32 (wordSize * i)

/-- A block with room for some words has room up to each of them. -/
theorem room_of_lt {n : Nat} (h : wordSize * n ≤ b.size) (hi : i < n) :
    wordSize * (i + 1) ≤ b.size :=
  Nat.le_trans (Nat.mul_le_mul_left wordSize hi) h

theorem toNat_word (h : wordSize * (i + 1) ≤ b.size) :
    (b.word i).toNat = b.base.toNat + wordSize * i := by
  have hfits := b.fits
  simp only [wordSize] at h
  simp only [word, wordSize, BitVec.toNat_add, BitVec.toNat_ofNat]
  omega

theorem has_word (h : wordSize * (i + 1) ≤ b.size) : b.Has (b.word i) := by
  rw [Has, toNat_word h]
  simp only [wordSize] at h ⊢
  omega

theorem word_inj (hi : wordSize * (i + 1) ≤ b.size) (hj : wordSize * (j + 1) ≤ b.size)
    (h : b.word i = b.word j) : i = j := by
  have hsame := congrArg BitVec.toNat h
  rw [toNat_word hi, toNat_word hj] at hsame
  simp only [wordSize] at hsame
  omega

theorem Disjoint.ne (h : a.Disjoint b) (hx : a.Has x) (hy : b.Has y) : x ≠ y := by
  rintro rfl
  obtain ⟨ha, ha'⟩ := hx
  obtain ⟨hb, hb'⟩ := hy
  simp only [wordSize] at ha' hb'
  exact h x.toNat ha (by omega) hb (by omega)

/-- New blocks share no byte with those in use. -/
def Apart (new heap : List Region) : Prop := ∀ b ∈ new, ∀ b' ∈ heap, b.Disjoint b'

/-- One block after another, each apart from all that were there before it. -/
theorem Apart.concat {new heap : List Region} (h : Apart new (b :: heap))
    (hb : ∀ b' ∈ heap, b.Disjoint b') : Apart (new ++ [b]) heap := by
  intro a ha b' hb'
  rcases List.mem_append.mp ha with ha | ha
  · exact h a ha b' (List.mem_cons_of_mem b hb')
  · rw [List.mem_singleton.mp ha]
    exact hb b' hb'

/-- The word at an address is in a block of memory in use. -/
def InUse (heap : List Region) (x : MachineWord) : Prop := ∃ b ∈ heap, b.Has x

theorem InUse.mono {heap heap' : List Region} (h : InUse heap x) (hsub : heap ⊆ heap') :
    InUse heap' x :=
  h.imp fun _ hb => ⟨hsub hb.1, hb.2⟩

end Region

/-- What a call for memory does that returns: the number of bytes is asked for in
`eax`, and the address of the block comes back there. -/
structure Allocation (heap : List Region) (m m' : Machine) (b : Region) : Prop where
  size : b.size = (m.registers .eax).toNat
  address : m'.registers .eax = b.base
  fresh : ∀ b' ∈ heap, b.Disjoint b'
  kept : ∀ x, Region.InUse heap x → m'.memory x = m.memory x

/-- A routine that allocates memory, as long as it returns. -/
structure Allocator where
  run : List Region → Machine → Option (Machine × Region)
  sound : ∀ {heap m m' b}, run heap m = some (m', b) → Allocation heap m m' b

/-- A machine, the lines ahead of it and the memory in use. -/
structure Process extends Config where
  heap : List Region

namespace Process

/-- What a process may write to: a named cell, or a word of a block that the
process has allocated and that a register points to. -/
def Owns (s : Process) (cells : List String) (old : List Region) : Address → Prop
  | .slot _ => False
  | .symbol name => name ∈ cells
  | .offset r bytes => ∃ new b, s.heap = new ++ old ∧ b ∈ new ∧ s.machine.registers r = b.base ∧
      bytes + wordSize ≤ b.size

/-- A store that comes next stays within bounds. -/
def StoresWithin (s : Process) (cells : List String) (old : List Region) : Prop :=
  match s.code with
  | .instr (.store a _) :: _ | .instr (.storeWord a _) :: _ => s.Owns cells old a
  | .instr (.push _) :: _ => False
  | _ => True

/-- A call for memory that comes next asks for one of these numbers of bytes. -/
def AsksFor (s : Process) (sizes : List Nat) : Prop :=
  ∀ rest, s.code = .instr (.call Symbol.malloc) :: rest → (s.machine.registers .eax).toNat ∈ sizes

/-- A call for memory comes next that does not return. -/
def Waits (s : Process) (alloc : Allocator) : Prop :=
  (∃ rest, s.code = .instr (.call Symbol.malloc) :: rest) ∧ alloc.run s.heap s.machine = none

end Process

namespace Program

variable (p : Program) (alloc : Allocator)

def stepWith (s : Process) : Option Process :=
  match s.code with
  | .instr (.call name) :: rest =>
    if name = Symbol.malloc then
      (alloc.run s.heap s.machine).map fun r => ⟨⟨rest, r.1⟩, r.2 :: s.heap⟩
    else none
  | _ => (p.step s.toConfig).map fun c => ⟨c, s.heap⟩

def StepsWith : Process → Process → Prop :=
  Relation.ReflTransGen fun s s' => p.stepWith alloc s = some s'

/-- Some steps in a row. -/
def runFor : Nat → Process → Option Process
  | 0, s => some s
  | n + 1, s => (p.stepWith alloc s).bind (runFor n)

/-- A process stores within bounds and asks for blocks of the given sizes only,
until it returns, with a machine of which `q` holds, or until it waits for memory. -/
structure Completes (cells : List String) (sizes : List Nat) (old : List Region) (start : Process)
    (q : Machine → Prop) : Prop where
  stores : ∀ s, p.StepsWith alloc start s → s.StoresWithin cells old
  asks : ∀ s, p.StepsWith alloc start s → s.AsksFor sizes
  ends : ∃ s, p.StepsWith alloc start s ∧
    (s.Waits alloc ∨ (s.toConfig.AtReturn ∧ q s.machine))

/-- A call of a routine with memory in use finds the routine, and it completes. -/
def CallCompletes (routine : String) (cells : List String) (sizes : List Nat)
    (heap : List Region) (m : Machine) (q : Machine → Prop) : Prop :=
  ∃ start, p.goto (.symbol routine) m = some start ∧
    p.Completes alloc cells sizes heap ⟨start, heap⟩ q

/-- From a process on all stores are within bounds and all blocks that are asked
for of the given sizes, up to a process of which `q` holds, or up to one that
waits for memory. -/
inductive Ensures (cells : List String) (sizes : List Nat) (old : List Region)
    (q : Process → Prop) : Process → Prop
  | done {s} (h : q s) : Ensures cells sizes old q s
  | waits {s} (hasks : s.AsksFor sizes) (h : s.Waits alloc) : Ensures cells sizes old q s
  | step {s s'} (hsafe : s.StoresWithin cells old) (hasks : s.AsksFor sizes)
    (hs : p.stepWith alloc s = some s') (h : Ensures cells sizes old q s') :
    Ensures cells sizes old q s

variable {p alloc} {cells : List String} {sizes : List Nat} {old : List Region} {q q' : Process → Prop} {s : Process}

theorem stepsWith_of_runFor {s' : Process} : ∀ {n : Nat} {s : Process},
    p.runFor alloc n s = some s' → p.StepsWith alloc s s'
  | 0, s, h => Option.some.inj h ▸ .refl
  | n + 1, s, h => by
    obtain ⟨s₁, hs, hrest⟩ := Option.bind_eq_some_iff.mp h
    exact .head hs (stepsWith_of_runFor hrest)

/-- There is only one way that a process can go. -/
theorem StepsWith.unique {a b : Process} (ha : p.StepsWith alloc s a) (hb : p.StepsWith alloc s b)
    (ha' : p.stepWith alloc a = none) (hb' : p.stepWith alloc b = none) : a = b := by
  have hright : Relator.RightUnique fun s s' => p.stepWith alloc s = some s' :=
    fun _ _ _ h h' => Option.some.inj (h.symm.trans h')
  rcases Relation.ReflTransGen.total_of_right_unique hright ha hb with h | h
  · rcases h.cases_head with rfl | ⟨c, hc, -⟩
    · rfl
    · cases ha'.symm.trans hc
  · rcases h.cases_head with rfl | ⟨c, hc, -⟩
    · rfl
    · cases hb'.symm.trans hc

theorem StepsWith.eq_of_stepWith_eq_none {s' : Process} (h : p.stepWith alloc s = none)
    (hs : p.StepsWith alloc s s') : s' = s := by
  rcases hs.cases_head with rfl | ⟨s'', hs'', -⟩
  · rfl
  · cases h.symm.trans hs''

theorem stepWith_of_atReturn (h : s.toConfig.AtReturn) : p.stepWith alloc s = none := by
  obtain ⟨rest, hcode⟩ := h
  obtain ⟨⟨code, m⟩, heap⟩ := s
  obtain rfl : code = _ := hcode
  rfl

theorem stepWith_of_waits (h : s.Waits alloc) : p.stepWith alloc s = none := by
  obtain ⟨⟨rest, hcode⟩, hnone⟩ := h
  rw [stepWith, hcode]
  simp [hnone]

/-- Wherever a process returns that completes, `q` holds. -/
theorem Completes.of_atReturn {start : Process} {r : Machine → Prop}
    (h : p.Completes alloc cells sizes old start r) (hs : p.StepsWith alloc start s)
    (hreturn : s.toConfig.AtReturn) : r s.machine := by
  obtain ⟨t, ht, hwaits | ⟨hret, hr⟩⟩ := h.ends
  · obtain rfl := hs.unique ht (stepWith_of_atReturn hreturn) (stepWith_of_waits hwaits)
    obtain ⟨rest, hcode⟩ := hreturn
    obtain ⟨⟨rest', hcode'⟩, -⟩ := hwaits
    cases hcode.symm.trans hcode'
  · obtain rfl := hs.unique ht (stepWith_of_atReturn hreturn) (stepWith_of_atReturn hret)
    exact hr

/-- A call that completes and is seen to return in some steps has come to `r`. -/
theorem CallCompletes.of_runFor {routine : String} {heap : List Region} {m : Machine}
    {r : Machine → Prop} (h : p.CallCompletes alloc routine cells sizes heap m r) {n : Nat}
    (hrun : (p.goto (.symbol routine) m).bind (fun start => p.runFor alloc n ⟨start, heap⟩) = some s)
    (hreturn : s.toConfig.AtReturn) :
    ∃ start, p.goto (.symbol routine) m = some start ∧ p.StepsWith alloc ⟨start, heap⟩ s ∧
      r s.machine := by
  obtain ⟨start, hstart, hcompletes⟩ := h
  rw [hstart] at hrun
  have hsteps := stepsWith_of_runFor hrun
  exact ⟨start, hstart, hsteps, hcompletes.of_atReturn hsteps hreturn⟩

namespace Ensures

/-- One stretch of code after another. -/
theorem bind (h : p.Ensures alloc cells sizes old q s)
    (hnext : ∀ s, q s → p.Ensures alloc cells sizes old q' s) : p.Ensures alloc cells sizes old q' s := by
  induction h with
  | done h => exact hnext _ h
  | waits hasks h => exact .waits hasks h
  | step hsafe hasks hs _ ih => exact .step hsafe hasks hs ih

/-- A process that is ensured to come to a return completes: there is only one
way that it can go. -/
theorem completes {r : Machine → Prop}
    (h : p.Ensures alloc cells sizes old (fun s => s.toConfig.AtReturn ∧ r s.machine) s) :
    p.Completes alloc cells sizes old s r := by
  induction h with
  | @done s h =>
    obtain ⟨rest, hcode⟩ := h.1
    have honly : ∀ s', p.StepsWith alloc s s' → s' = s :=
      fun _ => StepsWith.eq_of_stepWith_eq_none (stepWith_of_atReturn h.1)
    refine ⟨fun s' hs' => ?_, fun s' hs' rest' hcode' => ?_, s, .refl, .inr h⟩
    · rw [honly s' hs', Process.StoresWithin, hcode]
      trivial
    · rw [honly s' hs', hcode] at hcode'
      cases hcode'
  | @waits s hasks h =>
    obtain ⟨rest, hcode⟩ := h.1
    have honly : ∀ s', p.StepsWith alloc s s' → s' = s :=
      fun _ => StepsWith.eq_of_stepWith_eq_none (stepWith_of_waits h)
    refine ⟨fun s' hs' => ?_, fun s' hs' => ?_, s, .refl, .inl h⟩
    · rw [honly s' hs', Process.StoresWithin, hcode]
      trivial
    · rwa [honly s' hs']
  | @step s s' hsafe hasks hs _ ih =>
    obtain ⟨hstores, hrequests, t, ht, hend⟩ := ih
    have hlater : ∀ s'', p.StepsWith alloc s s'' → s'' = s ∨ p.StepsWith alloc s' s'' := by
      intro s'' hs''
      rcases hs''.cases_head with rfl | ⟨u, hu, hrest⟩
      · exact .inl rfl
      · obtain rfl := Option.some.inj (hs.symm.trans hu)
        exact .inr hrest
    refine ⟨fun s'' hs'' => ?_, fun s'' hs'' => ?_, t, .head hs ht, hend⟩
    · rcases hlater s'' hs'' with rfl | hrest
      · exact hsafe
      · exact hstores s'' hrest
    · rcases hlater s'' hs'' with rfl | hrest
      · exact hasks
      · exact hrequests s'' hrest

variable {m m' : Machine} {heap : List Region} {rest : Listing}

/-- An instruction that is followed by the next one. -/
theorem instr {i : Instr} (hsafe : Process.StoresWithin ⟨⟨.instr i :: rest, m⟩, heap⟩ cells old)
    (hexec : m.exec p.symbols i = some m')
    (h : p.Ensures alloc cells sizes old q ⟨⟨rest, m'⟩, heap⟩) :
    p.Ensures alloc cells sizes old q ⟨⟨.instr i :: rest, m⟩, heap⟩ := by
  have hcall : ∀ name, i ≠ .call name := by
    rintro name rfl
    cases hexec
  refine .step hsafe (fun rest' hcode => ?_) ?_ h
  · exact absurd (Line.instr.inj (List.cons.inj hcode).1) (hcall _)
  · cases i with
    | jmp | jumpIf | call | ret => cases hexec
    | _ => simp only [stepWith, Program.step, hexec, Option.map_some]

/-- Lines that are no instructions are passed over. -/
theorem passed (ls : Listing) (hls : ∀ line ∈ ls, ∀ i, line ≠ .instr i)
    (h : p.Ensures alloc cells sizes old q ⟨⟨rest, m⟩, heap⟩) :
    p.Ensures alloc cells sizes old q ⟨⟨ls ++ rest, m⟩, heap⟩ := by
  induction ls with
  | nil => exact h
  | cons line ls ih =>
    obtain ⟨hline, hrest⟩ := List.forall_mem_cons.mp hls
    cases line with
    | instr i => exact absurd rfl (hline i)
    | _ => exact .step trivial (fun _ hcode => by cases hcode) rfl (ih hrest)

/-- A call for memory, whatever block it returns. -/
theorem malloc (hsize : (m.registers .eax).toNat ∈ sizes)
    (h : ∀ m' b, Allocation heap m m' b → p.Ensures alloc cells sizes old q ⟨⟨rest, m'⟩, b :: heap⟩) :
    p.Ensures alloc cells sizes old q ⟨⟨.instr (.call Symbol.malloc) :: rest, m⟩, heap⟩ := by
  rcases hrun : alloc.run heap m with _ | ⟨m', b⟩
  · exact .waits (fun _ _ => hsize) ⟨⟨rest, rfl⟩, hrun⟩
  · refine .step trivial (fun _ _ => hsize) ?_ (h m' b (alloc.sound hrun))
    simp only [stepWith, hrun, Option.map_some, if_true]

end Ensures
end Program
end ClassCompiler
