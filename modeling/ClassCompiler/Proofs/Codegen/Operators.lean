import ClassCompiler.Proofs.Codegen.Generated

/-!
# The code of operators

On the words of its operands every operator is an operation on numbers,
whatever the kinds of the operands (`BinaryOp.onNumbers_word`), so its code is
looked at on numbers only. It is entered with the left operand in `ebx` and
the right one in `eax`; it leaves the result in `eax` and touches neither the
stack nor memory.

Key definition: `Program.Computes`.

Key theorems: `BinaryOp.emitEager_computes`, `UnaryOp.emit_computes`, `Literal.word_value`.
-/

namespace ClassCompiler

/-- The word of an operation is that of the operation on the operands' words. -/
theorem BinaryOp.onNumbers_word {op : BinaryOp} {a b v : Value} (h : op.result? a b = some v) :
    ∃ v', op.onNumbers? a.word b.word = some v' ∧ v'.word = v.word := by
  cases a with
  | bool a =>
    cases b with
    | bool b =>
      cases op <;> simp only [result?, onBools?, Option.some.injEq, reduceCtorEq] at h <;>
        subst h <;> cases a <;> cases b <;> exact ⟨_, rfl, by decide⟩
    | int | char | ref => simp [result?, Value.number?] at h
  | ref a =>
    cases b with
    | ref b =>
      cases op <;> simp only [result?, onRefs?, Option.some.injEq, reduceCtorEq] at h <;>
        subst h <;> exact ⟨_, rfl, rfl⟩
    | int | char | bool => simp [result?, Value.number?] at h
  | int a | char a =>
    cases b with
    | bool | ref => simp [result?, Value.number?] at h
    | int b | char b => exact ⟨v, by simpa [result?, Value.number?, Value.word] using h, rfl⟩

/-- A machine that differs from another in registers of the computation only. -/
structure Machine.SameFrame (m m' : Machine) : Prop where
  base : m'.registers .ebp = m.registers .ebp
  top : m'.registers .esp = m.registers .esp
  memory : m'.memory = m.memory

/-- A number that fills its sign into `edx` is the whole dividend. -/
theorem Machine.dividend_eq {m : Machine} {a : MachineWord} (ha : m.registers .eax = a)
    (hd : m.registers .edx = if a.toInt < 0 then -1 else 0) : m.dividend = a.toInt := by
  have hlt := a.isLt
  have hcond := BitVec.toInt_eq_toNat_cond a
  have hminus : (-1 : MachineWord).toInt = -1 := by decide
  have hzero : (0 : MachineWord).toInt = 0 := by decide
  rw [Machine.dividend, ha, hd]
  split at hcond <;> split <;> simp only [hminus, hzero] <;> omega

/-- A quotient that is defined is a word. -/
theorem BinaryOp.quotient_bounds {a b : MachineWord} (h : divides a b = true) :
    -0x80000000 ≤ a.toInt.tdiv b.toInt ∧ a.toInt.tdiv b.toInt < 0x80000000 := by
  simp only [divides, decide_eq_true_eq] at h
  have hne : a ≠ BitVec.intMin 32 ∨ b ≠ -1#32 := by
    by_cases ha : a = BitVec.intMin 32
    · exact .inr fun hb => h.2 ⟨by rw [ha]; decide, by rw [hb]; decide⟩
    · exact .inl ha
  rw [← BitVec.toInt_sdiv_of_ne_or_ne a b hne]
  exact ⟨BitVec.le_toInt _, BitVec.toInt_lt⟩

/-- A run of some code from one machine to another, that gives a result and
leaves the stack and memory alone. -/
def Program.Computes (p : Program) (ls : Listing) (m : Machine) (w : MachineWord) : Prop :=
  ∀ rest, ls ++ rest <:+ p.lines →
    ∃ m', p.Steps ⟨ls ++ rest, m⟩ ⟨rest, m'⟩ ∧ m.SameFrame m' ∧ m'.registers .eax = w

section
variable {p : Program} {m : Machine} {a b : MachineWord}

theorem emitComparison_computes (hp : p.lines.labels.Nodup) {c : Condition} {n n' : Nat}
    {ls : Listing} {u : Unit} (h : (emitComparison c).Gives n ls n' u)
    (ha : m.registers .ebx = a) (hb : m.registers .eax = b) :
    p.Computes ls m (if c.holds a b then 0 else 1) := by
  simp only [emitComparison, Emit.gives_fresh_bind, Emit.gives_lines] at h
  obtain ⟨rfl, -⟩ := h
  intro rest hin
  have hl : .label (.temporary n) :: rest <:+ p.lines := (List.suffix_append [_, _, _, _] _).trans hin
  have hcmp : m.execAll p.symbols [.arith .cmp .ebx (.reg .eax), .mov .eax (.imm 0)] =
      some ((m.setCompared (some (a, b))).setReg .eax 0) := by
    rw [← ha, ← hb]
    rfl
  cases hc : c.holds a b with
  | true =>
    exact ⟨_, (Program.Steps.instrs [_, _] hcmp).trans (.jumpTaken hp hl rfl hc), ⟨rfl, rfl, rfl⟩, rfl⟩
  | false =>
    exact ⟨((m.setCompared (some (a, b))).setReg .eax 0).setReg .eax 1,
      (Program.Steps.instrs [_, _] hcmp).trans ((Program.Steps.jumpNotTaken rfl hc).trans
        ((Program.Steps.instr rfl).trans (.label _))), ⟨rfl, rfl, rfl⟩, rfl⟩

/-- Code without labels computes what its instructions leave in `eax`. -/
theorem Program.Computes.of_execAll {m' : Machine} (is : List Instr) {w : MachineWord}
    (h : m.execAll p.symbols is = some m') (hs : m.SameFrame m') (hw : m'.registers .eax = w) :
    p.Computes (is.map .instr) m w :=
  fun _ _ => ⟨m', .instrs is h, hs, hw⟩

/-- Division of `ebx` by `eax`, where it is defined. -/
theorem Machine.execAll_divide (hd : BinaryOp.divides (m.registers .ebx) (m.registers .eax) = true) :
    ∃ m', m.execAll p.symbols [.xchg .eax .ebx, .cdq, .idiv .ebx] = some m' ∧ m.SameFrame m' ∧
      m'.registers .eax =
        BitVec.ofInt 32 ((m.registers .ebx).toInt.tdiv (m.registers .eax).toInt) ∧
      m'.registers .edx =
        BitVec.ofInt 32 ((m.registers .ebx).toInt.tmod (m.registers .eax).toInt) := by
  obtain ⟨hlow, hhigh⟩ := BinaryOp.quotient_bounds hd
  have hzero : (m.registers .eax).toInt ≠ 0 := by
    simp only [BinaryOp.divides, decide_eq_true_eq] at hd
    exact hd.1
  let m₁ := (m.setReg .eax (m.registers .ebx)).setReg .ebx (m.registers .eax)
  let m₂ := m₁.setReg .edx (if (m₁.registers .eax).toInt < 0 then -1 else 0)
  have hdiv : m₂.dividend = (m.registers .ebx).toInt := Machine.dividend_eq rfl rfl
  let m₃ := ((m₂.setReg .eax (BitVec.ofInt 32 (m₂.dividend.tdiv (m.registers .eax).toInt))).setReg .edx
    (BitVec.ofInt 32 (m₂.dividend.tmod (m.registers .eax).toInt))).setCompared none
  have hexec : m₂.divide (m.registers .eax).toInt = some m₃ := if_neg (by rw [hdiv]; omega)
  refine ⟨m₃, ?_, ⟨rfl, rfl, rfl⟩, by rw [← hdiv]; rfl, by rw [← hdiv]; rfl⟩
  calc m.execAll p.symbols [.xchg .eax .ebx, .cdq, .idiv .ebx]
    _ = (m₂.divide (m.registers .eax).toInt).bind some := rfl
    _ = some m₃ := by rw [hexec]; rfl

/-- The code of an operator computes it. -/
theorem BinaryOp.emitEager_computes (hp : p.lines.labels.Nodup) {op : BinaryOp} {n n' : Nat}
    {ls : Listing} {u : Unit} {v : Value} (h : op.emitEager.Gives n ls n' u)
    (hv : op.onNumbers? a b = some v) (ha : m.registers .ebx = a) (hb : m.registers .eax = b) :
    p.Computes ls m v.word := by
  subst ha hb
  cases op with
  | add =>
    obtain ⟨rfl, -⟩ := Emit.gives_lines.mp h
    obtain rfl := Option.some.inj hv
    exact .of_execAll [_] rfl ⟨rfl, rfl, rfl⟩ (BitVec.add_comm _ _)
  | sub =>
    obtain ⟨rfl, -⟩ := Emit.gives_lines.mp h
    obtain rfl := Option.some.inj hv
    exact .of_execAll [_, _] rfl ⟨rfl, rfl, rfl⟩ rfl
  | mul =>
    obtain ⟨rfl, -⟩ := Emit.gives_lines.mp h
    obtain rfl := Option.some.inj hv
    exact .of_execAll [_] rfl ⟨rfl, rfl, rfl⟩ (BitVec.mul_comm _ _)
  | bitAnd =>
    obtain ⟨rfl, -⟩ := Emit.gives_lines.mp h
    obtain rfl := Option.some.inj hv
    exact .of_execAll [_] rfl ⟨rfl, rfl, rfl⟩ (BitVec.and_comm _ _)
  | bitOr =>
    obtain ⟨rfl, -⟩ := Emit.gives_lines.mp h
    obtain rfl := Option.some.inj hv
    exact .of_execAll [_] rfl ⟨rfl, rfl, rfl⟩ (BitVec.or_comm _ _)
  | div =>
    obtain ⟨rfl, -⟩ := Emit.gives_lines.mp h
    obtain ⟨hd, rfl⟩ : divides (m.registers .ebx) (m.registers .eax) = true ∧ _ = v := by
      simpa [onNumbers?] using hv
    obtain ⟨m', hm, hs, hq, -⟩ := Machine.execAll_divide hd
    exact .of_execAll [_, _, _] hm hs hq
  | mod =>
    obtain ⟨rfl, -⟩ := Emit.gives_lines.mp h
    obtain ⟨hd, rfl⟩ : divides (m.registers .ebx) (m.registers .eax) = true ∧ _ = v := by
      simpa [onNumbers?] using hv
    obtain ⟨m', hm, hs, -, hr⟩ := Machine.execAll_divide (p := p) hd
    have hmov : m.execAll p.symbols ([.xchg .eax .ebx, .cdq, .idiv .ebx] ++ [.mov .eax (.reg .edx)]) =
        some (m'.setReg .eax (m'.registers .edx)) := by
      rw [Machine.execAll_append, hm]
      rfl
    exact .of_execAll _ hmov ⟨hs.base, hs.top, hs.memory⟩ hr
  | lt | le | gt | ge | eq | ne =>
    obtain rfl := Option.some.inj hv
    have hcode := emitComparison_computes hp h (Eq.refl (m.registers .ebx)) rfl
    refine Eq.subst ?_ hcode
    simp only [Condition.holds, Value.word, decide_eq_true_eq]
    grind [BitVec.toInt_inj]
  | and | or => cases hv

/-- The code of a unary operator computes it on `eax`. -/
theorem UnaryOp.emit_computes {op : UnaryOp} {n n' : Nat} {ls : Listing} {u : Unit} {v v' : Value}
    (h : op.emit.Gives n ls n' u) (hv : op.result? v = some v') (ha : m.registers .eax = v.word) :
    p.Computes ls m v'.word := by
  cases op with
  | minus =>
    obtain ⟨rfl, -⟩ := Emit.gives_instr.mp h
    refine .of_execAll [_] rfl ⟨rfl, rfl, rfl⟩ ?_
    cases v with
    | int | char =>
      obtain rfl := Option.some.inj hv
      exact congrArg (- ·) ha
    | bool | ref => cases hv
  | not =>
    obtain ⟨rfl, -⟩ := Emit.gives_instr.mp h
    refine .of_execAll [_] rfl ⟨rfl, rfl, rfl⟩ ?_
    cases v with
    | bool b =>
      obtain rfl := Option.some.inj hv
      refine (congrArg (· ^^^ BitVec.ofInt 32 1) ha).trans ?_
      cases b <;> decide
    | int | char | ref => cases hv

end

/-- The number in the code of a literal stands for its value. -/
theorem Literal.word_value {l : Literal} {k : Int} {v : Value} (h : l.word = .ok k)
    (hv : l.value? = some v) : BitVec.ofInt 32 k = v.word := by
  cases l with
  | integer n =>
    obtain rfl := Option.some.inj hv
    simp only [Literal.word] at h
    split at h
    · cases h
    · obtain rfl := Except.ok.inj h
      rfl
  | boolean b =>
    obtain rfl := Option.some.inj hv
    obtain rfl := Except.ok.inj h
    cases b <;> decide
  | char c =>
    obtain rfl := Option.some.inj hv
    obtain rfl := Except.ok.inj h
    exact BitVec.ofInt_natCast 32 c.toNat
  | string s => cases hv
  | null =>
    obtain rfl := Option.some.inj hv
    obtain rfl := Except.ok.inj h
    rfl

/-- The jump over the right operand is taken where the left one decides. -/
theorem BinaryOp.skipsOn_holds {op : BinaryOp} {c : Condition} {decided : Bool}
    (hc : op.skipsOn? = some c) (hd : op.decidedBy? = some decided) (b : Bool) :
    c.holds (Value.bool b).word 0 = (b == decided) := by
  cases op with
  | and | or =>
    obtain rfl := Option.some.inj hc
    obtain rfl := Option.some.inj hd
    cases b <;> decide
  | _ => cases hc

theorem BinaryOp.decidedBy?_isSome (op : BinaryOp) : op.decidedBy?.isSome = op.skipsOn?.isSome := by
  cases op <;> rfl

end ClassCompiler
