import ClassCompiler.Proofs.Codegen.Activation
import ClassCompiler.Proofs.Codegen.Operators

/-!
# Running the code of expressions

The code of an expression, run in an activation that holds the variables,
leaves the value of the expression in `eax` and the variables after its
assignments where they were. The operands that wait on the stack keep their
words, so that a binary operator finds its left operand again however its
right one was computed.

Key definitions: `Expr.operandDepth`, `Activation.Evaluated`.

Key theorem: `ExprCode.evaluated`.
-/

namespace ClassCompiler

/-- How many operands wait on the stack at a time. -/
def Expr.operandDepth : Expr → Nat
  | .binary left op right _ =>
    max left.operandDepth (right.operandDepth + if op.skipsOn?.isSome then 0 else 1)
  | .unary _ operand _ => operand.operandDepth
  | .assign _ value _ => value.operandDepth
  | _ => 0

/-! ### Values of compound expressions -/

section
variable {vars vars' : Variables} {v : Value} {sp : Span}

theorem Expr.eval_eager {left right : Expr} {op : BinaryOp} (hop : op.decidedBy? = none)
    (h : (Expr.binary left op right sp).eval vars = some (v, vars')) :
    ∃ a vars₁ b, left.eval vars = some (a, vars₁) ∧ right.eval vars₁ = some (b, vars') ∧
      op.result? a b = some v := by
  simp only [Expr.eval, hop, Option.bind_eq_bind, Option.bind_eq_some_iff, Prod.exists] at h
  obtain ⟨a, vars₁, ha, b, vars₂, hb, r, hr, h⟩ := h
  obtain ⟨rfl, rfl⟩ := Prod.mk.inj (Option.some.inj h)
  exact ⟨a, vars₁, b, ha, hb, hr⟩

theorem Expr.eval_shortCircuit {left right : Expr} {op : BinaryOp} {decided : Bool}
    (hop : op.decidedBy? = some decided)
    (h : (Expr.binary left op right sp).eval vars = some (v, vars')) :
    ∃ b vars₁, left.eval vars = some (.bool b, vars₁) ∧
      if b = decided then v = .bool b ∧ vars' = vars₁ else right.eval vars₁ = some (v, vars') := by
  simp only [Expr.eval, hop, Option.bind_eq_bind, Option.bind_eq_some_iff, Prod.exists] at h
  obtain ⟨a, vars₁, ha, h⟩ := h
  split at h
  · rename_i b
    refine ⟨b, vars₁, ha, ?_⟩
    by_cases hb : b = decided
    · rw [if_pos hb] at h ⊢
      obtain ⟨rfl, rfl⟩ := Prod.mk.inj (Option.some.inj h)
      exact ⟨rfl, rfl⟩
    · rw [if_neg hb] at h ⊢
      split at h
      · rename_i hr
        rw [hr, h]
      · cases h
  · cases h

theorem Expr.eval_unary {operand : Expr} {op : UnaryOp}
    (h : (Expr.unary op operand sp).eval vars = some (v, vars')) :
    ∃ a, operand.eval vars = some (a, vars') ∧ op.result? a = some v := by
  simp only [Expr.eval, Option.bind_eq_bind, Option.bind_eq_some_iff, Prod.exists] at h
  obtain ⟨a, vars₁, ha, r, hr, h⟩ := h
  obtain ⟨rfl, rfl⟩ := Prod.mk.inj (Option.some.inj h)
  exact ⟨a, ha, hr⟩

theorem Expr.eval_assign {ident : String} {value : Expr} {sp' : Span}
    (h : (Expr.assign (.name ident sp') value sp).eval vars = some (v, vars')) :
    ∃ vars₁, value.eval vars = some (v, vars₁) ∧ vars₁.assign? ident v = some vars' := by
  simp only [Expr.eval, Option.bind_eq_bind, Option.bind_eq_some_iff, Prod.exists] at h
  obtain ⟨a, vars₁, ha, vars₂, hs, h⟩ := h
  obtain ⟨rfl, rfl⟩ := Prod.mk.inj (Option.some.inj h)
  exact ⟨vars₁, ha, hs⟩

end

/-- Where a jump on the value in `eax` goes. -/
theorem Program.Steps.jumpOn {p : Program} (hp : p.lines.labels.Nodup) {l : Label} {rest' : Listing}
    (hl : .label l :: rest' <:+ p.lines) (c : Condition) (rest : Listing) (m : Machine) :
    p.Steps ⟨ClassCompiler.jumpOn c l ++ rest, m⟩
      ⟨if c.holds (m.registers .eax) 0 then rest' else rest,
        m.setCompared (some (m.registers .eax, 0))⟩ := by
  refine (Program.Steps.instr rfl).trans ?_
  cases hc : c.holds (m.registers .eax) 0 with
  | true => exact .jumpTaken hp hl rfl hc
  | false => exact .jumpNotTaken rfl hc

/-- The outcome of the code of an expression: the variables, the value and the
words that had to stay. -/
structure Activation.Evaluated (a : Activation) (f : Frame) (depth : Nat) (vars : Variables)
    (v : Value) (m m' : Machine) : Prop where
  holds : a.Holds f depth vars m'
  value : m'.registers .eax = v.word
  keeps : a.Keeps depth m m'

section
variable {p : Program} {a : Activation} {f : Frame} {depth : Nat} {vars : Variables} {m m' : Machine}

/-- Code that computes on registers only leaves the activation as it is. -/
theorem Activation.Holds.sameFrame (h : a.Holds f depth vars m) (hs : m.SameFrame m') :
    a.Holds f depth vars m' :=
  h.of_memory hs.base hs.top fun _ _ => by rw [hs.memory]

theorem Activation.Keeps.sameFrame (hs : m.SameFrame m') : a.Keeps depth m m' :=
  fun _ _ _ => by rw [hs.memory]

theorem Activation.Holds.slot_address (h : a.Holds f depth vars m) (s : Slot) :
    m.address p.symbols (.slot s) = a.address (.slot s) := by
  rw [Machine.address, h.base, Activation.address]

theorem Activation.operand_address (a : Activation) (depth : Nat) :
    a.base - BitVec.ofNat 32 (wordSize * (a.locals + depth)) - BitVec.ofNat 32 wordSize =
      a.address (.operand depth) := by
  have h : wordSize * (a.locals + depth + 1) = wordSize * (a.locals + depth) + wordSize := rfl
  rw [Activation.address, h, BitVec.ofNat_add, BitVec.sub_sub]

/-- A pushed operand waits above those that wait already. -/
theorem Activation.Holds.push (h : a.Holds f depth vars m) (ha : a.Fits) (hf : a.Covers f)
    (hd : depth < a.operands) (r : Register) :
    ∃ m', m.exec p.symbols (.push r) = some m' ∧ a.Holds f (depth + 1) vars m' ∧
      a.Keeps depth m m' ∧ m'.memory (a.address (.operand depth)) = m.registers r := by
  have htop : m.registers .esp - BitVec.ofNat 32 wordSize = a.address (.operand depth) := by
    rw [h.top, a.operand_address]
  have hmem := h.setMem ha hf (p := .operand depth) hd (by simp) (m.registers r)
  refine ⟨_, rfl, ?_, ?_, ?_⟩
  · rw [htop]
    exact ⟨hmem.base, rfl, hmem.stores⟩
  · rw [htop]
    exact Keeps.setMem ha (p := .operand depth) hd (Nat.lt_irrefl depth) _ _
  · rw [htop]
    exact if_pos rfl

/-- Popping takes the last of the waiting operands. -/
theorem Activation.Holds.pop (h : a.Holds f (depth + 1) vars m) {r : Register} (hb : r ≠ .ebp)
    (ht : r ≠ .esp) :
    ∃ m', m.exec p.symbols (.pop r) = some m' ∧ a.Holds f depth vars m' ∧
      a.Keeps depth m m' ∧ m'.registers r = m.memory (a.address (.operand depth)) ∧
      ∀ r', r' ≠ r → r' ≠ .esp → m'.registers r' = m.registers r' := by
  have htop : m.registers .esp = a.address (.operand depth) := h.top
  refine ⟨_, rfl, ⟨?_, ?_, h.stores⟩, fun _ _ _ => rfl, ?_, ?_⟩
  · simpa [hb.symm] using h.base
  · simp only [Machine.registers_setReg, ht.symm, if_false, if_true]
    rw [htop, ← a.operand_address, BitVec.sub_add_cancel]
  · simp [htop]
  · intro r' hr hr'
    simp [hr, hr']

/-- The code of an expression evaluates it. -/
theorem ExprCode.evaluated (hp : p.lines.labels.Nodup) (ha : a.Fits) (hf : a.Covers f) {e : Expr}
    {n n' : Nat} {ls : Listing} (h : ExprCode f e n ls n') :
    ∀ {depth : Nat} {vars vars' : Variables} {v : Value} {m : Machine} {rest : Listing},
      e.eval vars = some (v, vars') → ls ++ rest <:+ p.lines → depth + e.operandDepth ≤ a.operands →
      a.Holds f depth vars m →
      ∃ m', p.Steps ⟨ls ++ rest, m⟩ ⟨rest, m'⟩ ∧ a.Evaluated f depth vars' v m m' := by
  induction h with
  | @literal l k _ _ hl =>
    intro depth vars vars' v m rest hv hin hd hm
    obtain ⟨v', hv', h⟩ := Option.map_eq_some_iff.mp hv
    obtain ⟨rfl, rfl⟩ := Prod.mk.inj h
    refine ⟨_, .instr rfl, hm.setReg (by decide) (by decide) _, ?_, fun _ _ _ => rfl⟩
    exact Literal.word_value hl hv'
  | @name ident s _ _ hs =>
    intro depth vars vars' v m rest hv hin hd hm
    obtain ⟨v', hv', h⟩ := Option.map_eq_some_iff.mp hv
    obtain ⟨rfl, rfl⟩ := Prod.mk.inj h
    refine ⟨_, .instr rfl, hm.setReg (by decide) (by decide) _, ?_, fun _ _ _ => rfl⟩
    calc m.memory (m.address p.symbols (.slot s))
      _ = m.memory (a.address (.slot s)) := by rw [hm.slot_address]
      _ = v'.word := hm.read hv' hs
  | @shortCircuit left op right c n n₁ n₂ la lb sp hop _ _ ihl ihr =>
    intro depth vars vars' v m rest hv hin hd hm
    obtain ⟨decided, hdec⟩ : ∃ decided, op.decidedBy? = some decided := by
      rw [← Option.isSome_iff_exists, op.decidedBy?_isSome, hop]
      rfl
    obtain ⟨b, vars₁, hl, hrest⟩ := Expr.eval_shortCircuit hdec hv
    simp only [List.append_assoc] at hin ⊢
    simp only [Expr.operandDepth, hop, Option.isSome_some, if_true] at hd
    have hright := Listing.after _ (Listing.after _ hin)
    have hend : .label (.temporary n) :: rest <:+ p.lines := Listing.after _ hright
    obtain ⟨m₁, hs₁, ev₁⟩ := ihl hl hin (by omega) hm
    have hjump := Program.Steps.jumpOn hp hend c (lb ++ ([.label (.temporary n)] ++ rest)) m₁
    rw [ev₁.value, BinaryOp.skipsOn_holds hop hdec] at hjump
    by_cases hb : b = decided
    · rw [if_pos hb] at hrest
      obtain ⟨rfl, rfl⟩ := hrest
      rw [beq_iff_eq.mpr hb] at hjump
      exact ⟨_, hs₁.trans hjump, ev₁.holds.setCompared _, ev₁.value, ev₁.keeps⟩
    · rw [if_neg hb] at hrest
      rw [beq_eq_false_iff_ne.mpr hb] at hjump
      obtain ⟨m₂, hs₂, ev₂⟩ := ihr hrest hright (by omega) (ev₁.holds.setCompared _)
      exact ⟨m₂, hs₁.trans (hjump.trans (hs₂.trans (.label _))), ev₂.holds, ev₂.value,
        ev₁.keeps.trans ev₂.keeps⟩
  | @eager left op right n n₁ n₂ n₃ la lb lc sp hop _ _ ho ihl ihr =>
    intro depth vars vars' v m rest hv hin hd hm
    have hdec : op.decidedBy? = none := by
      rw [← Option.not_isSome_iff_eq_none, op.decidedBy?_isSome, hop]
      decide
    obtain ⟨x, vars₁, y, hl, hr, hop'⟩ := Expr.eval_eager hdec hv
    simp only [List.append_assoc, List.cons_append] at hin ⊢
    simp only [Expr.operandDepth, hop, Option.isSome_none, Bool.false_eq_true, if_false] at hd
    have hright := Listing.after [_] (Listing.after _ hin)
    have hcode := Listing.after [_] (Listing.after _ hright)
    obtain ⟨m₁, hs₁, ev₁⟩ := ihl hl hin (by omega) hm
    have hroom : depth < a.operands := by omega
    obtain ⟨m₂, hx₂, hm₂, hk₂, hmem⟩ := ev₁.holds.push ha hf hroom .eax
    obtain ⟨m₃, hs₃, ev₃⟩ := ihr hr hright (by omega) hm₂
    obtain ⟨m₄, hx₄, hm₄, hk₄, hebx, hregs⟩ := ev₃.holds.pop (r := .ebx) (by decide) (by decide)
    -- the left operand has waited below whatever the right one needed
    have hleft : m₄.registers .ebx = x.word := by
      rw [hebx, ev₃.keeps (.operand depth) (Nat.lt_succ_self depth) hroom, hmem, ev₁.value]
    have hright' : m₄.registers .eax = y.word := by
      rw [hregs _ (by decide) (by decide), ev₃.value]
    obtain ⟨w, hw, hword⟩ := BinaryOp.onNumbers_word hop'
    obtain ⟨m₅, hs₅, hf₅, heax⟩ := BinaryOp.emitEager_computes hp ho hw hleft hright' rest hcode
    refine ⟨m₅, hs₁.trans ((Program.Steps.instr hx₂).trans (hs₃.trans
      ((Program.Steps.instr hx₄).trans hs₅))), hm₄.sameFrame hf₅, heax.trans hword, ?_⟩
    exact ev₁.keeps.trans (hk₂.trans ((ev₃.keeps.mono (Nat.le_succ depth)).trans
      (hk₄.trans (.sameFrame hf₅))))
  | @unary op operand n n₁ n₂ la lb sp _ ho ih =>
    intro depth vars vars' v m rest hv hin hd hm
    obtain ⟨x, hx, hop⟩ := Expr.eval_unary hv
    rw [List.append_assoc] at hin ⊢
    obtain ⟨m₁, hs₁, ev₁⟩ := ih hx hin hd hm
    obtain ⟨m₂, hs₂, hf₂, heax⟩ := UnaryOp.emit_computes ho hop ev₁.value rest (Listing.after _ hin)
    exact ⟨m₂, hs₁.trans hs₂, ev₁.holds.sameFrame hf₂, heax, ev₁.keeps.trans (.sameFrame hf₂)⟩
  | @assign ident s value n n₁ la sp sp' hs _ ih =>
    intro depth vars vars' v m rest hv hin hd hm
    obtain ⟨vars₁, hx, hset⟩ := Expr.eval_assign hv
    rw [List.append_assoc] at hin ⊢
    obtain ⟨m₁, hs₁, ev₁⟩ := ih hx hin hd hm
    have hslot : a.Has (.slot s) := hf.has (Frame.mem_of_lookup (f.lookup?_eq ident ▸ hs))
    have hstore : m₁.exec p.symbols (.store (.slot s) .eax) =
        some (m₁.setMem (a.address (.slot s)) v.word) := by
      rw [Machine.exec, ev₁.holds.slot_address, ev₁.value]
    exact ⟨_, hs₁.trans (.instr hstore), ev₁.holds.assign ha hf hset hs, ev₁.value,
      ev₁.keeps.trans (.setMem ha hslot id _ _)⟩

end
end ClassCompiler
