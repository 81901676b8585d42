import ClassCompiler.Proofs.Codegen.Bindings
import ClassCompiler.Proofs.Codegen.Meaning

/-!
# The shape of generated code

Which lines a successful generation gives for each construct, at which
temporary label it starts and ends, and which frame it leaves: `ExprCode` for
expressions and `TaskCode` for statements, with one rule for each construct
that has code. What is true of generated code is then shown once over these
rules.

Key definitions: `Emit.Gives`, `ExprCode`, `OptionCode`, `TestCode`, `TaskCode`.

Key theorems: `Expr.code_of_gives` and `Stmt.code_of_gives` (all generated code
has this shape), `TaskCode.grows` (what it does to the frame),
`TaskCode.defines` (it defines each of its temporary labels once).
-/

namespace ClassCompiler

/-- Code that jumps to `target` if the value in `eax` compares so with zero. -/
def jumpOn (condition : Condition) (target : Label) : Listing :=
  [.instr (.arith .cmp .eax (.imm 0)), .instr (.jumpIf condition target)]

namespace Emit

/-- Generation from label `n` succeeds with these lines, next label and result. -/
def Gives (e : Emit α) (n : Nat) (ls : Listing) (n' : Nat) (a : α) : Prop :=
  e n = ⟨ls, n', .ok a⟩

variable {n n' : Nat} {ls : Listing}

@[simp] theorem gives_pure {a b : α} :
    (pure a : Emit α).Gives n ls n' b ↔ ls = [] ∧ n' = n ∧ b = a := by
  simp only [Gives, pure, Emit.pure, Emission.mk.injEq, Except.ok.injEq]
  grind

@[simp] theorem gives_bind {e : Emit α} {k : α → Emit β} {b : β} :
    (e >>= k).Gives n ls n' b ↔
      ∃ ls₁ n₁ a ls₂, e.Gives n ls₁ n₁ a ∧ (k a).Gives n₁ ls₂ n' b ∧ ls = ls₁ ++ ls₂ := by
  unfold Gives
  rcases h : e n with ⟨ls₁, n₁, err | a⟩
  · simp [bind_of_error h]
  · rw [bind_of_ok h]
    rcases h' : k a n₁ with ⟨ls₂, n₂, r⟩
    simp only [Emission.mk.injEq, Except.ok.injEq]
    constructor
    · rintro ⟨rfl, rfl, rfl⟩
      exact ⟨ls₁, n₁, a, ls₂, ⟨rfl, rfl, rfl⟩, h', rfl⟩
    · rintro ⟨_, _, _, ls₂', ⟨rfl, rfl, rfl⟩, h₂, rfl⟩
      rw [h', Emission.mk.injEq] at h₂
      obtain ⟨rfl, rfl, rfl⟩ := h₂
      exact ⟨rfl, rfl, rfl⟩

@[simp] theorem gives_fail {err : Error} {a : α} : ¬ (fail err : Emit α).Gives n ls n' a := by
  simp [Gives, fail]

@[simp] theorem gives_lines {ls' : Listing} {u : Unit} :
    (lines ls').Gives n ls n' u ↔ ls = ls' ∧ n' = n := by
  simp only [Gives, lines, Emission.mk.injEq]
  grind

@[simp] theorem gives_lines_bind {ls' : Listing} {k : Unit → Emit β} {b : β} :
    (lines ls' >>= k).Gives n ls n' b ↔ ∃ ls₂, (k ()).Gives n ls₂ n' b ∧ ls = ls' ++ ls₂ := by
  rw [gives_bind]
  constructor
  · rintro ⟨_, _, _, ls₂, h, h', rfl⟩
    obtain ⟨rfl, rfl⟩ := gives_lines.mp h
    exact ⟨ls₂, h', rfl⟩
  · rintro ⟨ls₂, h, rfl⟩
    exact ⟨_, _, (), ls₂, gives_lines.mpr ⟨rfl, rfl⟩, h, rfl⟩

@[simp] theorem gives_line_bind {l : Line Instr} {k : Unit → Emit β} {b : β} :
    (line l >>= k).Gives n ls n' b ↔ ∃ ls₂, (k ()).Gives n ls₂ n' b ∧ ls = l :: ls₂ :=
  gives_lines_bind

@[simp] theorem gives_instr_bind {i : Instr} {k : Unit → Emit β} {b : β} :
    (instr i >>= k).Gives n ls n' b ↔ ∃ ls₂, (k ()).Gives n ls₂ n' b ∧ ls = .instr i :: ls₂ :=
  gives_lines_bind

@[simp] theorem gives_label_bind {l : Label} {k : Unit → Emit β} {b : β} :
    (label l >>= k).Gives n ls n' b ↔ ∃ ls₂, (k ()).Gives n ls₂ n' b ∧ ls = .label l :: ls₂ :=
  gives_lines_bind

@[simp] theorem gives_instr {i : Instr} {u : Unit} :
    (instr i).Gives n ls n' u ↔ ls = [.instr i] ∧ n' = n := gives_lines

@[simp] theorem gives_label {l : Label} {u : Unit} :
    (label l).Gives n ls n' u ↔ ls = [.label l] ∧ n' = n := gives_lines

@[simp] theorem gives_fresh_bind {k : Label → Emit β} {b : β} :
    (fresh >>= k).Gives n ls n' b ↔ (k (.temporary n)).Gives (n + 1) ls n' b := by
  have hf : fresh n = ⟨[], n + 1, .ok (.temporary n)⟩ := rfl
  rcases hk : k (.temporary n) (n + 1) with ⟨ls', k', r⟩
  simp only [Gives, bind_of_ok hf, hk, List.nil_append]

@[simp] theorem gives_emitJump_bind {c : Condition} {l : Label} {k : Unit → Emit β} {b : β} :
    (emitJump c l >>= k).Gives n ls n' b ↔
      ∃ ls₂, (k ()).Gives n ls₂ n' b ∧ ls = jumpOn c l ++ ls₂ :=
  gives_lines_bind

end Emit

/-- The code of an expression, from one temporary label to another. -/
inductive ExprCode (f : Frame) : Expr → Nat → Listing → Nat → Prop
  | literal {l k n sp} (h : l.word = .ok k) :
    ExprCode f (.literal l sp) n [.instr (.mov .eax (.imm k))] n
  | name {ident s n sp} (h : f.lookup? ident = some s) :
    ExprCode f (.name ident sp) n [.instr (.mov .eax (.mem (.slot s)))] n
  | shortCircuit {left op right c n n₁ n₂ la lb sp} (hop : op.skipsOn? = some c)
    (hl : ExprCode f left (n + 1) la n₁) (hr : ExprCode f right n₁ lb n₂) :
    ExprCode f (.binary left op right sp) n
      (la ++ (jumpOn c (.temporary n) ++ (lb ++ [.label (.temporary n)]))) n₂
  | eager {left op right n n₁ n₂ n₃ la lb lc sp} (hop : op.skipsOn? = none)
    (hl : ExprCode f left n la n₁) (hr : ExprCode f right n₁ lb n₂)
    (ho : op.emitEager.Gives n₂ lc n₃ ()) :
    ExprCode f (.binary left op right sp) n
      (la ++ (.instr (.push .eax) :: (lb ++ (.instr (.pop .ebx) :: lc)))) n₃
  | unary {op operand n n₁ n₂ la lb sp} (h : ExprCode f operand n la n₁)
    (ho : op.emit.Gives n₁ lb n₂ ()) :
    ExprCode f (.unary op operand sp) n (la ++ lb) n₂
  | assign {ident s value n n₁ la sp sp'} (hs : f.lookup? ident = some s)
    (h : ExprCode f value n la n₁) :
    ExprCode f (.assign (.name ident sp') value sp) n
      (la ++ [.instr (.store (.slot s) .eax)]) n₁

/-- The code of an expression that may be missing. -/
inductive OptionCode (f : Frame) : Option Expr → Nat → Listing → Nat → Prop
  | absent {n} : OptionCode f none n [] n
  | present {e n n' ls} (h : ExprCode f e n ls n') : OptionCode f (some e) n ls n'

/-- The code that leaves a loop for `target` if its condition is false. -/
inductive TestCode (f : Frame) (target : Label) : Option Expr → Nat → Listing → Nat → Prop
  | absent {n} : TestCode f target none n [] n
  | present {e n n' ls} (h : ExprCode f e n ls n') :
    TestCode f target (some e) n (ls ++ jumpOn .equal target) n'

/-- The code of a task in a routine that ends at `exit`, from one temporary
label to another and from one frame to another. -/
inductive TaskCode (exit : Label) : Frame → Task → Nat → Listing → Nat → Frame → Prop
  | expr {f e n n' la sp} (h : ExprCode f e n la n') :
    TaskCode exit f (.stmt (.expr e sp)) n ((Stmt.expr e sp).caption :: la) n' f
  | localVar {f type ident e n n' la sp} (h : ExprCode f e n la n') :
    TaskCode exit f (.stmt (.localVar type ident e sp)) n
      ((Stmt.localVar type ident e sp).caption :: (la ++ [.instr (.store (.slot f.nextSlot) .eax)]))
      n' (f.declare ident)
  | branch {f f₁ c thenPart n n₁ n₂ la lb sp} (hc : ExprCode f c (n + 1) la n₁)
    (ht : TaskCode exit f (.stmt thenPart) n₁ lb n₂ f₁) :
    TaskCode exit f (.stmt (.branch c thenPart none sp)) n
      ((Stmt.branch c thenPart none sp).caption ::
        (la ++ (jumpOn .equal (.temporary n) ++ (lb ++ [.label (.temporary n)])))) n₂ f₁
  | branchElse {f f₁ f₂ c thenPart elsePart n n₁ n₂ n₃ la lb lc sp}
    (hc : ExprCode f c (n + 1) la n₁) (ht : TaskCode exit f (.stmt thenPart) n₁ lb n₂ f₁)
    (he : TaskCode exit f₁ (.stmt elsePart) (n₂ + 1) lc n₃ f₂) :
    TaskCode exit f (.stmt (.branch c thenPart (some elsePart) sp)) n
      ((Stmt.branch c thenPart (some elsePart) sp).caption ::
        (la ++ (jumpOn .equal (.temporary n) ++ (lb ++ (.instr (.jmp (.temporary n₂)) ::
          .label (.temporary n) :: (lc ++ [.label (.temporary n₂)])))))) n₃ f₂
  | whileLoop {f f' c body n n' ls sp} (h : TaskCode exit f (.loop (some c) none body) n ls n' f') :
    TaskCode exit f (.stmt (.whileLoop c body sp)) n ((Stmt.whileLoop c body sp).caption :: ls) n' f'
  | forLoop {f f₁ f₂ init c u body n n₁ n₂ la lb sp}
    (hi : TaskCode exit f.enter (.stmt (init.getD .empty)) n la n₁ f₁)
    (h : TaskCode exit f₁ (.loop c u body) n₁ lb n₂ f₂) :
    TaskCode exit f (.stmt (.forLoop init c u body sp)) n
      ((Stmt.forLoop init c u body sp).caption :: (la ++ lb)) n₂ f₂.exit
  | ret {f value n n' la sp} (h : OptionCode f value n la n') :
    TaskCode exit f (.stmt (.ret value sp)) n
      ((Stmt.ret value sp).caption :: (la ++ [.instr (.jmp exit)])) n' f
  | block {f f' ss n n' ls sp} (h : TaskCode exit f.enter (.seq ss) n ls n' f') :
    TaskCode exit f (.stmt (.block ss sp)) n ls n' f'.exit
  | empty {f n} : TaskCode exit f (.stmt .empty) n [] n f
  | nil {f n} : TaskCode exit f (.seq []) n [] n f
  | cons {f f₁ f₂ s ss n n₁ n₂ la lb} (h : TaskCode exit f (.stmt s) n la n₁ f₁)
    (hs : TaskCode exit f₁ (.seq ss) n₁ lb n₂ f₂) :
    TaskCode exit f (.seq (s :: ss)) n (la ++ lb) n₂ f₂
  | loop {f f₁ c u body n n₁ n₂ n₃ la lb lc}
    (hc : TestCode f (.temporary (n + 1)) c (n + 2) la n₁)
    (hb : TaskCode exit f (.stmt body) n₁ lb n₂ f₁) (hu : OptionCode f₁ u n₂ lc n₃) :
    TaskCode exit f (.loop c u body) n
      (.label (.temporary n) :: (la ++ (lb ++ (lc ++
        [.instr (.jmp (.temporary n)), .label (.temporary (n + 1))])))) n₃ f₁

/-! ### All generated code has this shape -/

theorem Expr.code_of_gives {f : Frame} {u : Unit} :
    ∀ (e : Expr) {n n' : Nat} {ls : Listing}, (e.emit f).Gives n ls n' u → ExprCode f e n ls n'
  | .literal l sp, n, n', ls, h => by
    simp only [Expr.emit, Literal.emit] at h
    split at h
    · exact absurd h Emit.gives_fail
    · rename_i k hk
      obtain ⟨rfl, rfl⟩ := Emit.gives_instr.mp h
      exact .literal hk
  | .name ident sp, n, n', ls, h => by
    simp only [Expr.emit] at h
    split at h
    · rename_i s hs
      obtain ⟨rfl, rfl⟩ := Emit.gives_instr.mp h
      exact .name hs
    · exact absurd h Emit.gives_fail
  | .binary left op right sp, n, n', ls, h => by
    simp only [Expr.emit] at h
    split at h
    · rename_i c hc
      obtain ⟨la, n₁, _, _, hl, h₁, rfl⟩ := Emit.gives_bind.mp (Emit.gives_fresh_bind.mp h)
      obtain ⟨_, h₂, rfl⟩ := Emit.gives_emitJump_bind.mp h₁
      obtain ⟨lb, n₂, _, _, hr, h₃, rfl⟩ := Emit.gives_bind.mp h₂
      obtain ⟨rfl, rfl⟩ := Emit.gives_label.mp h₃
      exact .shortCircuit hc (Expr.code_of_gives left hl) (Expr.code_of_gives right hr)
    · rename_i hop
      obtain ⟨la, n₁, _, _, hl, h₁, rfl⟩ := Emit.gives_bind.mp h
      obtain ⟨_, h₂, rfl⟩ := Emit.gives_instr_bind.mp h₁
      obtain ⟨lb, n₂, _, _, hr, h₃, rfl⟩ := Emit.gives_bind.mp h₂
      obtain ⟨lc, ho, rfl⟩ := Emit.gives_instr_bind.mp h₃
      exact .eager hop (Expr.code_of_gives left hl) (Expr.code_of_gives right hr) ho
  | .unary op operand sp, n, n', ls, h => by
    simp only [Expr.emit] at h
    obtain ⟨la, n₁, _, lb, hv, ho, rfl⟩ := Emit.gives_bind.mp h
    exact .unary (Expr.code_of_gives operand hv) ho
  | .assign target value sp, n, n', ls, h => by
    simp only [Expr.emit] at h
    split at h
    · rename_i s hs
      obtain ⟨la, n₁, _, _, hv, ho, rfl⟩ := Emit.gives_bind.mp h
      obtain ⟨rfl, rfl⟩ := Emit.gives_instr.mp ho
      cases target with
      | name ident sp' => exact .assign hs (Expr.code_of_gives value hv)
      | _ => simp [Expr.target?] at hs
    · exact absurd h Emit.gives_fail
  | .thisRef .., _, _, _, h | .call .., _, _, _, h | .field .., _, _, _, h
  | .element .., _, _, _, h | .cast .., _, _, _, h | .instanceOf .., _, _, _, h
  | .new .., _, _, _, h | .newArray .., _, _, _, h => by simp [Expr.emit] at h

theorem OptionCode.of_gives {f : Frame} {u : Unit} {n n' : Nat} {ls : Listing} :
    ∀ {o : Option Expr}, (Expr.emitOption f o).Gives n ls n' u → OptionCode f o n ls n'
  | .none, h => by
    obtain ⟨rfl, rfl, -⟩ := Emit.gives_pure.mp h
    exact .absent
  | .some e, h => .present (Expr.code_of_gives e h)

mutual

theorem Stmt.code_of_gives (exit : Label) :
    ∀ (s : Stmt) {f f' : Frame} {n n' : Nat} {ls : Listing},
      (s.emit exit f).Gives n ls n' f' → TaskCode exit f (.stmt s) n ls n' f'
  | .expr e sp, f, f', n, n', ls, h => by
    simp only [Stmt.emit] at h
    obtain ⟨_, h₁, rfl⟩ := Emit.gives_line_bind.mp h
    obtain ⟨la, n₁, _, _, he, h₂, rfl⟩ := Emit.gives_bind.mp h₁
    obtain ⟨rfl, rfl, rfl⟩ := Emit.gives_pure.mp h₂
    rw [List.append_nil]
    exact .expr (Expr.code_of_gives e he)
  | .localVar type ident e sp, f, f', n, n', ls, h => by
    simp only [Stmt.emit] at h
    obtain ⟨_, h₁, rfl⟩ := Emit.gives_line_bind.mp h
    obtain ⟨la, n₁, _, _, he, h₂, rfl⟩ := Emit.gives_bind.mp h₁
    obtain ⟨_, h₃, rfl⟩ := Emit.gives_instr_bind.mp h₂
    obtain ⟨rfl, rfl, rfl⟩ := Emit.gives_pure.mp h₃
    exact .localVar (Expr.code_of_gives e he)
  | .branch c thenPart elsePart sp, f, f', n, n', ls, h => by
    simp only [Stmt.emit] at h
    obtain ⟨_, h₁, rfl⟩ := Emit.gives_line_bind.mp h
    obtain ⟨la, n₁, _, _, hc, h₂, rfl⟩ := Emit.gives_bind.mp (Emit.gives_fresh_bind.mp h₁)
    obtain ⟨_, h₃, rfl⟩ := Emit.gives_emitJump_bind.mp h₂
    obtain ⟨lb, n₂, f₁, _, ht, h₄, rfl⟩ := Emit.gives_bind.mp h₃
    have hc := Expr.code_of_gives c hc
    have ht := Stmt.code_of_gives exit thenPart ht
    cases elsePart with
    | none =>
      obtain ⟨_, h₅, rfl⟩ := Emit.gives_label_bind.mp h₄
      obtain ⟨rfl, rfl, rfl⟩ := Emit.gives_pure.mp h₅
      exact .branch hc ht
    | some elsePart =>
      obtain ⟨_, h₅, rfl⟩ := Emit.gives_instr_bind.mp (Emit.gives_fresh_bind.mp h₄)
      obtain ⟨_, h₆, rfl⟩ := Emit.gives_label_bind.mp h₅
      obtain ⟨lc, n₃, f₂, _, he, h₇, rfl⟩ := Emit.gives_bind.mp h₆
      obtain ⟨_, h₈, rfl⟩ := Emit.gives_label_bind.mp h₇
      obtain ⟨rfl, rfl, rfl⟩ := Emit.gives_pure.mp h₈
      exact .branchElse hc ht (Stmt.code_of_gives exit elsePart he)
  | .whileLoop c body sp, f, f', n, n', ls, h => by
    simp only [Stmt.emit] at h
    obtain ⟨_, h₁, rfl⟩ := Emit.gives_line_bind.mp h
    obtain ⟨_, h₂, rfl⟩ := Emit.gives_label_bind.mp (Emit.gives_fresh_bind.mp (Emit.gives_fresh_bind.mp h₁))
    obtain ⟨la, n₁, _, _, hc, h₃, rfl⟩ := Emit.gives_bind.mp h₂
    obtain ⟨_, h₄, rfl⟩ := Emit.gives_emitJump_bind.mp h₃
    obtain ⟨lb, n₂, f₁, _, hb, h₅, rfl⟩ := Emit.gives_bind.mp h₄
    obtain ⟨_, h₆, rfl⟩ := Emit.gives_instr_bind.mp h₅
    obtain ⟨_, h₇, rfl⟩ := Emit.gives_label_bind.mp h₆
    obtain ⟨rfl, rfl, rfl⟩ := Emit.gives_pure.mp h₇
    have hloop := TaskCode.loop (.present (Expr.code_of_gives c hc)) (Stmt.code_of_gives exit body hb) .absent
    rw [List.append_assoc] at hloop
    exact .whileLoop hloop
  | .forLoop init c u body sp, f, f', n, n', ls, h => by
    simp only [Stmt.emit] at h
    obtain ⟨_, h₁, rfl⟩ := Emit.gives_line_bind.mp h
    obtain ⟨la, n₁, f₁, _, hi, h₂, rfl⟩ := Emit.gives_bind.mp h₁
    obtain ⟨_, h₃, rfl⟩ := Emit.gives_label_bind.mp (Emit.gives_fresh_bind.mp (Emit.gives_fresh_bind.mp h₂))
    have hi := Stmt.codeOption_of_gives exit init hi
    cases c with
    | none =>
      obtain ⟨lb, n₂, f₂, _, hb, h₄, rfl⟩ := Emit.gives_bind.mp h₃
      obtain ⟨lc, n₃, _, _, hu, h₅, rfl⟩ := Emit.gives_bind.mp h₄
      obtain ⟨_, h₆, rfl⟩ := Emit.gives_instr_bind.mp h₅
      obtain ⟨_, h₇, rfl⟩ := Emit.gives_label_bind.mp h₆
      obtain ⟨rfl, rfl, rfl⟩ := Emit.gives_pure.mp h₇
      exact .forLoop hi (.loop .absent (Stmt.code_of_gives exit body hb) (.of_gives hu))
    | some c =>
      obtain ⟨ld, n₂, _, _, hc, h₄, rfl⟩ := Emit.gives_bind.mp h₃
      obtain ⟨_, h₅, rfl⟩ := Emit.gives_emitJump_bind.mp h₄
      obtain ⟨lb, n₃, f₂, _, hb, h₆, rfl⟩ := Emit.gives_bind.mp h₅
      obtain ⟨lc, n₄, _, _, hu, h₇, rfl⟩ := Emit.gives_bind.mp h₆
      obtain ⟨_, h₈, rfl⟩ := Emit.gives_instr_bind.mp h₇
      obtain ⟨_, h₉, rfl⟩ := Emit.gives_label_bind.mp h₈
      obtain ⟨rfl, rfl, rfl⟩ := Emit.gives_pure.mp h₉
      have hloop := TaskCode.loop (.present (Expr.code_of_gives c hc)) (Stmt.code_of_gives exit body hb)
        (.of_gives hu)
      rw [List.append_assoc] at hloop
      exact .forLoop hi hloop
  | .ret value sp, f, f', n, n', ls, h => by
    simp only [Stmt.emit] at h
    obtain ⟨_, h₁, rfl⟩ := Emit.gives_line_bind.mp h
    obtain ⟨la, n₁, _, _, hv, h₂, rfl⟩ := Emit.gives_bind.mp h₁
    obtain ⟨_, h₃, rfl⟩ := Emit.gives_instr_bind.mp h₂
    obtain ⟨rfl, rfl, rfl⟩ := Emit.gives_pure.mp h₃
    exact .ret (.of_gives hv)
  | .block ss sp, f, f', n, n', ls, h => by
    simp only [Stmt.emit] at h
    obtain ⟨la, n₁, f₁, _, hs, h₁, rfl⟩ := Emit.gives_bind.mp h
    obtain ⟨rfl, rfl, rfl⟩ := Emit.gives_pure.mp h₁
    rw [List.append_nil]
    exact .block (Stmt.codeAll_of_gives exit ss hs)
  | .empty, f, f', n, n', ls, h => by
    simp only [Stmt.emit] at h
    obtain ⟨rfl, rfl, rfl⟩ := Emit.gives_pure.mp h
    exact .empty

theorem Stmt.codeAll_of_gives (exit : Label) :
    ∀ (ss : List Stmt) {f f' : Frame} {n n' : Nat} {ls : Listing},
      (Stmt.emitAll exit f ss).Gives n ls n' f' → TaskCode exit f (.seq ss) n ls n' f'
  | [], f, f', n, n', ls, h => by
    obtain ⟨rfl, rfl, rfl⟩ := Emit.gives_pure.mp h
    exact .nil
  | s :: ss, f, f', n, n', ls, h => by
    obtain ⟨la, n₁, f₁, lb, h₁, hs, rfl⟩ := Emit.gives_bind.mp h
    exact .cons (Stmt.code_of_gives exit s h₁) (Stmt.codeAll_of_gives exit ss hs)

theorem Stmt.codeOption_of_gives (exit : Label) :
    ∀ (o : Option Stmt) {f f' : Frame} {n n' : Nat} {ls : Listing},
      (Stmt.emitOption exit f o).Gives n ls n' f' → TaskCode exit f (.stmt (o.getD .empty)) n ls n' f'
  | none, f, f', n, n', ls, h => by
    obtain ⟨rfl, rfl, rfl⟩ := Emit.gives_pure.mp h
    exact .empty
  | some s, f, f', n, n', ls, h => Stmt.code_of_gives exit s h

end

/-! ### Frames and labels of generated code -/

theorem TaskCode.grows {exit : Label} {f f' : Frame} {t : Task} {n n' : Nat} {ls : Listing}
    (h : TaskCode exit f t n ls n' f') : f.Grows f' := by
  induction h with
  | expr _ | ret _ | empty | nil => exact .refl _
  | localVar _ => exact .declare _ _
  | branch _ _ ih => exact ih
  | branchElse _ _ _ iht ihe => exact iht.trans ihe
  | whileLoop _ ih => exact ih
  | forLoop _ _ ihi ih => exact (ihi.trans ih).exit
  | block _ ih => exact ih.exit
  | cons _ _ ih ihs => exact ih.trans ihs
  | loop _ _ _ ih => exact ih

theorem TaskCode.placed {exit : Label} {f f' : Frame} {t : Task} {n n' arguments : Nat}
    {ls : Listing} (h : TaskCode exit f t n ls n' f') (hf : f.Placed arguments) :
    f'.Placed arguments := by
  induction h with
  | expr _ | ret _ | empty | nil => exact hf
  | localVar _ => exact hf.declare _
  | branch _ _ ih => exact ih hf
  | branchElse _ _ _ iht ihe => exact ihe (iht hf)
  | whileLoop _ ih => exact ih hf
  | forLoop _ _ ihi ih => exact (ih (ihi hf.enter)).exit
  | block _ ih => exact (ih hf.enter).exit
  | cons _ _ ih ihs => exact ihs (ih hf)
  | loop _ _ _ ih => exact ih hf

/-- The temporary labels from `n` up to `n'` are defined once each, and no
other label is. -/
def Listing.Defines (ls : Listing) (n n' : Nat) : Prop :=
  n ≤ n' ∧ (∀ k, ls.labels.count (.temporary k) = if n ≤ k ∧ k < n' then 1 else 0) ∧
    ∀ name, .symbol name ∉ ls.labels

namespace Listing

@[simp] theorem labels_nil : labels [] = [] := rfl

@[simp] theorem labels_instr (i : Instr) (ls : Listing) : labels (.instr i :: ls) = ls.labels := rfl

@[simp] theorem labels_label (l : Label) (ls : Listing) : labels (.label l :: ls) = l :: ls.labels := rfl

@[simp] theorem labels_caption (s : Stmt) (ls : Listing) : labels (s.caption :: ls) = ls.labels := rfl

@[simp] theorem labels_jumpOn (c : Condition) (l : Label) : (jumpOn c l).labels = [] := rfl

end Listing

namespace Listing.Defines

variable {ls ls' : Listing} {n n' n'' : Nat}

theorem of_no_labels (h : ls.labels = []) : ls.Defines n n := by
  refine ⟨Nat.le_refl n, fun k => ?_, by simp [h]⟩
  rw [h, if_neg (by omega)]
  rfl

theorem label (n : Nat) : Listing.Defines [.label (.temporary n)] n (n + 1) := by
  refine ⟨Nat.le_succ n, fun k => ?_, by simp⟩
  simp only [labels_label, labels_nil, List.count_cons, List.count_nil]
  grind

theorem append (h : ls.Defines n n') (h' : ls'.Defines n' n'') : (ls ++ ls').Defines n n'' := by
  obtain ⟨hle, hcount, hsymbol⟩ := h
  obtain ⟨hle', hcount', hsymbol'⟩ := h'
  refine ⟨Nat.le_trans hle hle', fun k => ?_, by simp [hsymbol, hsymbol']⟩
  rw [labels_append, List.count_append, hcount, hcount']
  grind

/-- Where the labels stand does not matter. -/
theorem of_count (h : ls.Defines n n') (hc : ∀ l, ls'.labels.count l = ls.labels.count l) :
    ls'.Defines n n' := by
  refine ⟨h.1, fun k => (hc _).trans (h.2.1 k), fun name hm => h.2.2 name ?_⟩
  rw [← List.count_pos_iff, ← hc]
  exact List.count_pos_iff.mpr hm

end Listing.Defines

theorem BinaryOp.defines_emitEager {op : BinaryOp} {n n' : Nat} {ls : Listing} {u : Unit}
    (h : op.emitEager.Gives n ls n' u) : ls.Defines n n' := by
  cases op with
  | and | or => exact absurd h Emit.gives_fail
  | lt | le | gt | ge | eq | ne =>
    simp only [BinaryOp.emitEager, emitComparison, Emit.gives_fresh_bind, Emit.gives_lines] at h
    obtain ⟨rfl, rfl⟩ := h
    exact (Listing.Defines.label n).of_count fun _ => rfl
  | _ =>
    simp only [BinaryOp.emitEager, Emit.gives_instr, Emit.gives_lines] at h
    obtain ⟨rfl, rfl⟩ := h
    exact .of_no_labels rfl

theorem UnaryOp.defines_emit {op : UnaryOp} {n n' : Nat} {ls : Listing} {u : Unit}
    (h : op.emit.Gives n ls n' u) : ls.Defines n n' := by
  cases op <;> obtain ⟨rfl, rfl⟩ := Emit.gives_instr.mp h <;> exact .of_no_labels rfl

theorem ExprCode.defines {f : Frame} {e : Expr} {n n' : Nat} {ls : Listing}
    (h : ExprCode f e n ls n') : ls.Defines n n' := by
  induction h with
  | literal _ | name _ => exact .of_no_labels rfl
  | shortCircuit _ _ _ ihl ihr =>
    refine (((Listing.Defines.label _).append ihl).append ihr).of_count fun l => ?_
    simp only [Listing.labels_append, Listing.labels_jumpOn, Listing.labels_label, Listing.labels_nil,
      List.count_append, List.count_cons, List.count_nil]
    omega
  | eager _ _ _ ho ihl ihr =>
    refine ((ihl.append ihr).append (BinaryOp.defines_emitEager ho)).of_count fun l => ?_
    simp
  | unary _ ho ih => exact ih.append (UnaryOp.defines_emit ho)
  | assign _ _ ih => exact ih.of_count fun l => by simp

theorem OptionCode.defines {f : Frame} {o : Option Expr} {n n' : Nat} {ls : Listing}
    (h : OptionCode f o n ls n') : ls.Defines n n' := by
  cases h with
  | absent => exact .of_no_labels rfl
  | present h => exact h.defines

theorem TestCode.defines {f : Frame} {l : Label} {o : Option Expr} {n n' : Nat} {ls : Listing}
    (h : TestCode f l o n ls n') : ls.Defines n n' := by
  cases h with
  | absent => exact .of_no_labels rfl
  | present h => exact h.defines.of_count fun l => by simp

/-- Generated code defines each of its temporary labels once. -/
theorem TaskCode.defines {exit : Label} {f f' : Frame} {t : Task} {n n' : Nat} {ls : Listing}
    (h : TaskCode exit f t n ls n' f') : ls.Defines n n' := by
  induction h with
  | expr h => exact h.defines
  | localVar h => exact h.defines.of_count fun l => by simp
  | branch hc _ ih =>
    refine (((Listing.Defines.label _).append hc.defines).append ih).of_count fun l => ?_
    simp only [Listing.labels_caption, Listing.labels_append, Listing.labels_jumpOn,
      Listing.labels_label, Listing.labels_nil, List.count_append, List.count_cons, List.count_nil]
    omega
  | branchElse hc _ _ iht ihe =>
    refine (((((Listing.Defines.label _).append hc.defines).append iht).append
      (.label _)).append ihe).of_count fun l => ?_
    simp only [Listing.labels_caption, Listing.labels_append, Listing.labels_jumpOn,
      Listing.labels_instr, Listing.labels_label, Listing.labels_nil, List.count_append,
      List.count_cons, List.count_nil]
    omega
  | whileLoop _ ih => exact ih
  | forLoop _ _ ihi ih => exact ihi.append ih
  | ret h => exact h.defines.of_count fun l => by simp
  | block _ ih => exact ih
  | empty | nil => exact .of_no_labels rfl
  | cons _ _ ih ihs => exact ih.append ihs
  | loop hc _ hu ih =>
    refine (((((Listing.Defines.label _).append (.label _)).append hc.defines).append
      ih).append hu.defines).of_count fun l => ?_
    simp only [Listing.labels_append, Listing.labels_instr, Listing.labels_label,
      Listing.labels_nil, List.count_append, List.count_cons, List.count_nil]
    omega

end ClassCompiler
