import ClassCompiler.Codegen.Unit
import ClassCompiler.Proofs.Codegen.StmtRuns
import Mathlib.Data.List.Nodup

/-!
# Running the code of routines

A routine that is called with its arguments on the stack, and with room below
them for its own words, does what its body means: if the body returns a value,
the machine comes to the return with that value in `eax`, and if the body ends
in another way, the machine comes to the return as well. Either way the stack
pointer, the frame pointer and the return address are those of the call.

Key definitions: `Member.routine?`, `Routine.CalledWith`, `Routine.ReturnsFrom`.

Key theorem: `Member.code_follows_body`.
-/

namespace ClassCompiler

/-- The routine of a method or constructor that has a body. -/
def Member.routine? (owner : String) : Member → Option Routine
  | .field _ => none
  | .method m => m.body.map (Routine.ofMethod owner m)
  | .ctor k => some (Routine.ofConstructor owner k)

theorem Member.emit_of_routine? {owner : String} {member : Member} {r : Routine}
    (h : member.routine? owner = some r) : member.emit owner = r.emit := by
  cases member with
  | field => cases h
  | method m =>
    obtain ⟨body, hb, rfl⟩ := Option.map_eq_some_iff.mp h
    simp only [Member.emit, MethodDecl.emit, hb]
  | ctor k =>
    obtain rfl := Option.some.inj h
    rfl

namespace Routine

/-- The argument words: the receiver, if there is one, and the parameters. -/
def argumentWords (r : Routine) : Nat := r.firstArgument + r.parameters.length

/-- The words of the stack that a routine takes below its return address: the
saved frame pointer, the local variables and the operands that wait. -/
def stackWords (r : Routine) : Nat :=
  1 + r.body.localCount + Stmt.operandDepthAll r.body.statements

/-- A machine at the entry of a routine: the return address is on top of the
stack, the arguments are above it, and there is enough stack. -/
structure CalledWith (r : Routine) (arguments : List Value) (m : Machine) : Prop where
  below : wordSize * r.stackWords ≤ (m.registers .esp).toNat
  above : (m.registers .esp).toNat + wordSize * (1 + r.argumentWords) ≤ 0x100000000
  arguments : ∀ {i v}, arguments[i]? = some v →
    m.memory (m.registers .esp + BitVec.ofNat 32 (wordSize * (1 + i))) = v.word

/-- The words of the stack that a call takes. -/
def activation (r : Routine) (m : Machine) : Activation where
  base := m.registers .esp - BitVec.ofNat 32 wordSize
  locals := r.body.localCount
  arguments := r.argumentWords
  operands := Stmt.operandDepthAll r.body.statements

/-- A machine that is about to return from a call that `m` entered. -/
structure ReturnsFrom (m : Machine) (c : Config) : Prop where
  atReturn : c.AtReturn
  top : c.machine.registers .esp = m.registers .esp
  base : c.machine.registers .ebp = m.registers .ebp
  address : c.machine.memory (m.registers .esp) = m.memory (m.registers .esp)

section
variable {r : Routine} {args : List Value} {m : Machine}

theorem CalledWith.base_toNat (h : r.CalledWith args m) :
    (r.activation m).base.toNat = (m.registers .esp).toNat - wordSize := by
  have hb := h.below
  simp only [stackWords, wordSize] at hb
  simp only [activation, wordSize, BitVec.toNat_sub, BitVec.toNat_ofNat]
  omega

theorem CalledWith.fits (h : r.CalledWith args m) : (r.activation m).Fits := by
  have hb := h.below
  have ha := h.above
  constructor
  · rw [h.base_toNat]
    simp only [stackWords, wordSize, activation] at hb ⊢
    omega
  · rw [h.base_toNat]
    simp only [stackWords, wordSize, activation] at ha hb ⊢
    omega

end

/-- The frame at the start of a routine's body. -/
def frame (r : Routine) : Frame := (Frame.begin r.parameters r.isInstance).enter

theorem frame_bindings (r : Routine) :
    r.frame.bindings =
      (r.parameters.zipIdx r.firstArgument).reverse.map fun b => (b.1, .argument b.2) := rfl

theorem lt_argumentWords {r : Routine} {b : String × Nat}
    (h : b ∈ r.parameters.zipIdx r.firstArgument) : b.2 < r.argumentWords := by
  have hlt := (List.mem_zipIdx h).2.1
  rw [argumentWords]
  omega

theorem frame_placed (r : Routine) : r.frame.Placed r.argumentWords := by
  refine ⟨?_, ?_, ?_⟩
  · have hwords : r.frame.bindings.map Prod.snd =
        ((List.range' r.firstArgument r.parameters.length).map Slot.argument).reverse := by
      rw [frame_bindings, ← List.zipIdx_map_snd, List.map_map, List.map_map, List.map_reverse]
      rfl
    rw [hwords, List.nodup_reverse]
    exact (List.nodup_range' ..).map fun _ _ => Slot.argument.inj
  · intro name k h
    simp [frame_bindings] at h
  · intro name i h
    rw [frame_bindings, List.mem_map] at h
    obtain ⟨b, hb, he⟩ := h
    obtain rfl : b.2 = i := Slot.argument.inj (Prod.mk.inj he).2
    exact lt_argumentWords (List.mem_reverse.mp hb)

/-! ### The call, the body and the return -/

section
variable {r : Routine} {args : List Value} {m m' : Machine} {p : Program} {rest : Listing}

theorem address_returnAddress (r : Routine) (m : Machine) :
    (r.activation m).address .returnAddress = m.registers .esp :=
  BitVec.sub_add_cancel _ _

theorem address_argument (r : Routine) (m : Machine) (i : Nat) :
    (r.activation m).address (.slot (.argument i)) =
      m.registers .esp + BitVec.ofNat 32 (wordSize * (1 + i)) := by
  have hwords : 2 * wordSize + wordSize * i = wordSize + wordSize * (1 + i) := by
    simp only [wordSize]
    omega
  rw [Activation.address, Slot.address, hwords, BitVec.ofNat_add, ← BitVec.add_assoc, activation,
    BitVec.sub_add_cancel]

/-- Saving the frame pointer leaves the arguments where the frame finds them. -/
theorem CalledWith.stores (h : r.CalledWith args m) {memory : MachineWord → MachineWord}
    (hm : ∀ i < r.argumentWords, memory ((r.activation m).address (.slot (.argument i))) =
      m.memory ((r.activation m).address (.slot (.argument i)))) :
    List.Forall₂ ((r.activation m).Stores memory) (r.startVariables args) r.frame.bindings := by
  rw [frame_bindings, startVariables, ← List.map_reverse, List.forall₂_map_left_iff,
    List.forall₂_map_right_iff, List.forall₂_same]
  intro b hb
  refine ⟨rfl, fun v hv => ?_⟩
  rw [← h.arguments hv, ← r.address_argument]
  exact hm b.2 (lt_argumentWords (List.mem_reverse.mp hb))

/-- The part of the entry that reserves the words of the local variables. -/
def reserve (locals : Nat) : Listing :=
  if locals = 0 then [] else [.instr (.arith .sub .esp (.imm (wordSize * locals : Nat)))]

theorem reserve_runs (p : Program) (m : Machine) (locals : Nat) (rest : Listing) :
    ∃ m', p.Steps ⟨reserve locals ++ rest, m⟩ ⟨rest, m'⟩ ∧
      m'.registers .ebp = m.registers .ebp ∧
      m'.registers .esp = m.registers .esp - BitVec.ofNat 32 (wordSize * locals) ∧
      m'.memory = m.memory := by
  by_cases hl : locals = 0
  · subst hl
    exact ⟨m, .refl _, rfl, (BitVec.sub_zero _).symm, rfl⟩
  · rw [reserve, if_neg hl]
    refine ⟨_, .instr rfl, rfl, ?_, rfl⟩
    exact congrArg (m.registers .esp - ·) (BitVec.ofInt_natCast 32 _)

/-- What the entry of a routine leaves: the machine is ready for the body, and
the words of the caller are kept. -/
theorem CalledWith.entered (h : r.CalledWith args m) :
    ∃ m', p.Steps ⟨(r.entry r.body.localCount).drop 3 ++ rest, m⟩ ⟨rest, m'⟩ ∧
      (r.activation m).Holds r.frame 0 (r.startVariables args) m' ∧
      m'.memory ((r.activation m).address .savedBase) = m.registers .ebp ∧
      m'.memory ((r.activation m).address .returnAddress) =
        m.memory ((r.activation m).address .returnAddress) := by
  let base := (r.activation m).base
  let saved := ((m.setReg .esp base).setMem base (m.registers .ebp)).setReg .ebp base
  have hsaved : p.Steps ⟨(r.entry r.body.localCount).drop 3 ++ rest, m⟩
      ⟨reserve r.body.localCount ++ rest, saved⟩ :=
    (Program.Steps.label _).trans (.instrs [_, _] rfl)
  obtain ⟨m', hs, hbase, htop, hmemory⟩ := reserve_runs p saved r.body.localCount rest
  -- the one word that was written is that of the saved frame pointer
  have hother : ∀ q, (r.activation m).Has q → q ≠ .savedBase →
      m'.memory ((r.activation m).address q) = m.memory ((r.activation m).address q) := by
    intro q hq hne
    rw [hmemory]
    exact if_neg fun he => hne (Activation.address_inj h.fits hq (q := .savedBase) trivial he)
  refine ⟨m', hsaved.trans hs, ⟨hbase, htop, h.stores fun i hi => ?_⟩, ?_, ?_⟩
  · exact hother (.slot (.argument i)) hi (by simp)
  · rw [hmemory]
    exact if_pos rfl
  · exact hother .returnAddress trivial (by simp)

/-- The end of a routine gives back the stack and the frame of the caller. -/
theorem epilogue_runs {exit : Label} (hb : m'.registers .ebp = (r.activation m).base)
    (hsaved : m'.memory ((r.activation m).address .savedBase) = m.registers .ebp)
    (haddress : m'.memory ((r.activation m).address .returnAddress) =
      m.memory ((r.activation m).address .returnAddress)) :
    ∃ c, p.Steps ⟨(epilogue exit).tail, m'⟩ c ∧ ReturnsFrom m c ∧
      c.machine.registers .eax = m'.registers .eax := by
  have htop : m'.registers .ebp + BitVec.ofNat 32 wordSize = m.registers .esp := by
    rw [hb]
    exact r.address_returnAddress m
  rw [r.address_returnAddress] at haddress
  refine ⟨⟨[.instr .ret], _⟩, .instrs [_, _] rfl, ⟨⟨[], rfl⟩, htop, ?_, haddress⟩, rfl⟩
  rw [← hsaved, Activation.address, ← hb]
  rfl

end

/-- The code of a routine: its entry, the code of its body, and its end. -/
theorem code_of_gives {r : Routine} {n n' : Nat} {ls : Listing} {u : Unit}
    (h : r.emit.Gives n ls n' u) :
    ∃ lb f', TaskCode (.temporary n) r.frame (.seq r.body.statements) (n + 1) lb n' f' ∧
      f'.nextLocal = r.body.localCount ∧
      ls = r.entry r.body.localCount ++ (lb ++ epilogue (.temporary n)) := by
  obtain ⟨_, h₁, rfl⟩ := Emit.gives_lines_bind.mp (Emit.gives_fresh_bind.mp h)
  obtain ⟨_, n₁, f, ld, h₂, h₃, rfl⟩ := Emit.gives_bind.mp h₁
  obtain ⟨lb, n₂, f', _, h₄, h₅, rfl⟩ := Emit.gives_bind.mp h₂
  obtain ⟨rfl, rfl, rfl⟩ := Emit.gives_pure.mp h₅
  rw [List.append_nil]
  split at h₃
  · rename_i hl
    obtain ⟨rfl, rfl⟩ := Emit.gives_lines.mp h₃
    exact ⟨lb, f', Stmt.codeAll_of_gives _ _ h₄, hl, rfl⟩
  · exact absurd h₃ Emit.gives_fail

end Routine

theorem Listing.Defines.nodup {ls : Listing} {n n' : Nat} (h : ls.Defines n n') :
    ls.labels.Nodup := by
  rw [List.nodup_iff_count_le_one]
  intro l
  cases l with
  | temporary k =>
    rw [h.2.1 k]
    split <;> omega
  | symbol name =>
    rw [List.count_eq_zero.mpr (h.2.2 name)]
    omega

/-- The code of a routine defines no label twice. -/
theorem Routine.labels_nodup {r : Routine} {n n' : Nat} {ls : Listing} {u : Unit}
    (h : r.emit.Gives n ls n' u) : ls.labels.Nodup := by
  obtain ⟨lb, f', hcode, -, rfl⟩ := Routine.code_of_gives h
  have hd := hcode.defines
  have hentry : (r.entry r.body.localCount).labels = [.symbol r.symbol] := by
    simp only [Routine.entry]
    split <;> rfl
  have hend : (Routine.epilogue (.temporary n)).labels = [.temporary n] := rfl
  have hexit : .temporary n ∉ lb.labels := by
    rw [← List.count_eq_zero, hd.2.1 n, if_neg (by omega)]
  rw [Listing.labels_append, Listing.labels_append, hentry, hend]
  refine List.nodup_cons.mpr ⟨by simp [hd.2.2], hd.nodup.append (List.nodup_singleton _) ?_⟩
  exact List.disjoint_singleton.mpr hexit

/-- A routine that is entered by its symbol returns as its body says. -/
theorem Routine.code_returns {r : Routine} {args : List Value} {out : Ending} {m : Machine}
    {p : Program} {n n' : Nat} {u : Unit} (h : r.emit.Gives n p.lines n' u)
    (hscoped : Stmt.isScopedAll r.body.statements = true) (hcall : r.CalledWith args m)
    (hrun : r.Runs args out) :
    ∃ start c, p.goto (.symbol r.symbol) m = some start ∧ p.Steps start c ∧
      Routine.ReturnsFrom m c ∧ ∀ v, out = .returned (some v) → c.machine.registers .eax = v.word := by
  have hlabels := Routine.labels_nodup h
  obtain ⟨lb, f', hcode, hlocals, hlines⟩ := Routine.code_of_gives h
  have hstart : (r.entry r.body.localCount).drop 3 ++ (lb ++ Routine.epilogue (.temporary n)) <:+
      p.lines := by
    rw [hlines]
    exact Listing.after [_, _, _] (List.suffix_refl _)
  have hbody := Listing.after _ hstart
  have hhosts : (r.activation m).Hosts p (.temporary n) (Routine.epilogue (.temporary n)).tail :=
    ⟨hlabels, hcall.fits, Listing.after _ hbody⟩
  have hready : (r.activation m).Ready p (.temporary n) r.frame (.seq r.body.statements) lb
      (Routine.epilogue (.temporary n)) f' :=
    ⟨⟨n + 1, n', hcode⟩, hscoped, r.frame_placed, Nat.le_of_eq hlocals, Nat.le_refl _, hbody⟩
  obtain ⟨m₁, hs₁, hm₁, hsaved, haddress⟩ := hcall.entered
  obtain ⟨m₂, hs₂, hb₂, hk₂, hv₂⟩ : ∃ m₂, p.Steps ⟨lb ++ Routine.epilogue (.temporary n), m₁⟩
      ⟨(Routine.epilogue (.temporary n)).tail, m₂⟩ ∧ m₂.registers .ebp = (r.activation m).base ∧
      (r.activation m).Keeps 0 m₁ m₂ ∧
      ∀ v, out = .returned (some v) → m₂.registers .eax = v.word := by
    have hreaches := hrun.follows hhosts hready hm₁
    cases out with
    | completed vars =>
      obtain ⟨m₂, hs, hm₂, hk⟩ := hreaches
      exact ⟨m₂, hs.trans (.label _), hm₂.base, hk, nofun⟩
    | returned value =>
      obtain ⟨m₂, hs, hb, hv, hk⟩ := hreaches
      exact ⟨m₂, hs, hb, hk, fun v hout => hv v (Ending.returned.inj hout)⟩
  obtain ⟨c, hs₃, hreturns, heax⟩ := Routine.epilogue_runs hb₂
    ((hk₂ .savedBase trivial trivial).trans hsaved)
    ((hk₂ .returnAddress trivial trivial).trans haddress)
  refine ⟨_, c, ?_, hs₁.trans (hs₂.trans hs₃), hreturns, fun v hout => heax.trans (hv₂ v hout)⟩
  rw [Program.goto, Listing.from?_of_suffix hlabels hstart]
  rfl

/-- The code of every method and constructor with a body does what the body
means: called by its symbol with enough stack, the machine comes to the return,
with the value that the body returns, if it returns one. -/
theorem Member.code_follows_body (member : Member) {owner : String} {r : Routine} {n : Nat}
    (hr : member.routine? owner = some r) (hok : (member.emit owner n).result = .ok ())
    (hscoped : Stmt.isScopedAll r.body.statements = true) {args : List Value} {m : Machine}
    (hcall : r.CalledWith args m) {out : Ending} (hrun : r.Runs args out)
    (symbols : String → MachineWord) :
    ∃ start c, Program.goto ⟨(member.emit owner n).lines, symbols⟩ (.symbol r.symbol) m = some start ∧
      Program.Steps ⟨(member.emit owner n).lines, symbols⟩ start c ∧ Routine.ReturnsFrom m c ∧
      ∀ v, out = .returned (some v) → c.machine.registers .eax = v.word := by
  rw [Member.emit_of_routine? hr] at hok ⊢
  have hgives : r.emit.Gives n (r.emit n).lines (r.emit n).nextLabel () := by
    rw [Emit.Gives, ← hok]
  exact Routine.code_returns (p := ⟨(r.emit n).lines, symbols⟩) hgives hscoped hcall hrun

/-- A static method that adds its argument and all lesser numbers up, in a loop
that it leaves by a return. -/
def sumDown : MethodDecl where
  modifiers := [.isStatic]
  returnType := some (.named "int")
  name := "sumDown"
  parameters := [.of (.named "int") "n"]
  body := some {
    statements := [
      .localVar (.named "int") "sum" (.ofInt 0) .zero,
      .whileLoop (.ofBool true)
        (.block [
          .branch (.ofBinary (.ofName "n") .eq (.ofInt 0)) (.ret (some (.ofName "sum")) .zero) none .zero,
          .expr (.assign (.ofName "sum") (.ofBinary (.ofName "sum") .add (.ofName "n")) .zero) .zero,
          .expr (.assign (.ofName "n") (.ofBinary (.ofName "n") .sub (.ofInt 1)) .zero) .zero] .zero)
        .zero]
    span := .zero }
  span := .zero

/-- The machine at a call of `sumDown` with the argument 2. -/
def sumDownCall : Machine where
  registers := fun
    | .esp => 0x10000
    | _ => 0
  memory a := if a = 0x10004 then 2 else 0
  compared := none

/-- The routine of `sumDown` in its class. -/
def sumDownRoutine : Routine :=
  Routine.ofMethod "p.Sums" sumDown (sumDown.body.get rfl)

theorem sumDown_runs : sumDownRoutine.Runs [.int 2] (.returned (some (.int 3))) := by
  -- two rounds of the loop, and a third one that returns
  refine .cons (.localVar rfl) (.consReturns (.whileLoop ?_))
  refine .loopGoesOn rfl (.block (.cons (.branch (b := false) rfl .empty)
    (.cons (.expr rfl) (.cons (.expr rfl) .nil)))) rfl ?_
  refine .loopGoesOn rfl (.block (.cons (.branch (b := false) rfl .empty)
    (.cons (.expr rfl) (.cons (.expr rfl) .nil)))) rfl ?_
  refine .loopReturns rfl ?_
  show Runs _ _ (Ending.leave 2 (.returned _))
  exact .block (.consReturns (.branch (b := true) rfl (.retValue rfl)))

theorem sumDown_called : sumDownRoutine.CalledWith [.int 2] sumDownCall where
  below := by decide
  above := by decide
  arguments := by
    intro i v h
    cases i with
    | zero =>
      obtain rfl := Option.some.inj h
      rfl
    | succ i => cases h

/-- The code of `sumDown` returns 3 for 2. -/
theorem sumDown_code_returns :
    Stmt.isScopedAll sumDownRoutine.body.statements = true ∧
    ((Member.method sumDown).emit "p.Sums" 0).result = .ok () ∧
    ∃ start c, Program.goto ⟨((Member.method sumDown).emit "p.Sums" 0).lines, fun _ => 0⟩
        (.symbol sumDownRoutine.symbol) sumDownCall = some start ∧
      Program.Steps ⟨((Member.method sumDown).emit "p.Sums" 0).lines, fun _ => 0⟩ start c ∧
      c.AtReturn ∧ c.machine.registers .eax = 3 := by
  have hscoped : Stmt.isScopedAll sumDownRoutine.body.statements = true := by decide
  have hok : ((Member.method sumDown).emit "p.Sums" 0).result = .ok () := by rfl
  obtain ⟨start, c, hstart, hsteps, hreturns, hvalue⟩ := Member.code_follows_body
    (.method sumDown) rfl hok hscoped sumDown_called sumDown_runs fun _ => 0
  exact ⟨hscoped, hok, start, c, hstart, hsteps, hreturns.atReturn, hvalue _ rfl⟩

end ClassCompiler
