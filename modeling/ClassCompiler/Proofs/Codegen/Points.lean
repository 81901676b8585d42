import ClassCompiler.Proofs.Codegen.StmtRuns

/-!
# The points of generated code

What the stack holds depends on the point of the code alone, whichever way the
machine came there. Each point has a mark: the pushes whose operands wait, and
whether the last comparison still counts. Going through the code line by line
gives the marks, and a jump leads to a point with the mark that it has itself.

How many operands wait at a line can be read off the source as well: one for
each operator around the line whose left operand is saved.

Key definitions: `Expr.savedOperands`, `Task.savedOperands`, `Listing.Balanced`,
`Mark`, `Mark.points`, `Chart.Admits`.

Key theorems: `TaskCode.after` (code leaves the mark as it was),
`TaskCode.map_depth` (marks agree with the source), `TaskCode.admits` (every
line keeps to the marks).
-/

namespace ClassCompiler

/-! ### Saved operands in the source -/

def BinaryOp.lineCount : BinaryOp → Nat
  | .add | .mul | .bitAnd | .bitOr => 1
  | .sub => 2
  | .div => 3
  | .mod => 4
  | .lt | .le | .gt | .ge | .eq | .ne => 5
  | .and | .or => 0

/-- For each line of the code of an expression, how many operators around it
have saved their left operands. An operator saves its left operand before the
code of the right one, and takes it back after it. -/
def Expr.savedOperands : Expr → List Nat
  | .literal .. | .name .. => [0]
  | .binary left op right _ =>
    if op.skipsOn?.isSome then left.savedOperands ++ ([0, 0] ++ (right.savedOperands ++ [0]))
    else
      left.savedOperands ++
        (0 :: (right.savedOperands.map (· + 1) ++ (1 :: List.replicate op.lineCount 0)))
  | .unary _ operand _ => operand.savedOperands ++ [0]
  | .assign _ value _ => value.savedOperands ++ [0]
  | _ => []

def Expr.savedOperandsOption : Option Expr → List Nat
  | none => []
  | some e => e.savedOperands

/-- The lines of a test that may leave a loop. -/
def Expr.savedOperandsTest : Option Expr → List Nat
  | none => []
  | some e => e.savedOperands ++ [0, 0]

mutual

/-- For each line of the code of a statement, how many operators around it have
saved their left operands. -/
def Stmt.savedOperands : Stmt → List Nat
  | .expr e _ => 0 :: e.savedOperands
  | .localVar _ _ initializer _ => 0 :: (initializer.savedOperands ++ [0])
  | .branch condition thenPart elsePart _ =>
    0 :: (condition.savedOperands ++
      ([0, 0] ++ (thenPart.savedOperands ++ Stmt.savedOperandsElse elsePart)))
  | .whileLoop condition body _ =>
    0 :: 0 :: (Expr.savedOperandsTest (some condition) ++ (body.savedOperands ++ [0, 0]))
  | .forLoop init condition update body _ =>
    0 :: (Stmt.savedOperandsOption init ++
      (0 :: (Expr.savedOperandsTest condition ++
        (body.savedOperands ++ (Expr.savedOperandsOption update ++ [0, 0])))))
  | .ret value _ => 0 :: (Expr.savedOperandsOption value ++ [0])
  | .block statements _ => Stmt.savedOperandsAll statements
  | .empty => []

def Stmt.savedOperandsElse : Option Stmt → List Nat
  | none => [0]
  | some s => 0 :: 0 :: (s.savedOperands ++ [0])

def Stmt.savedOperandsOption : Option Stmt → List Nat
  | none => []
  | some s => s.savedOperands

def Stmt.savedOperandsAll : List Stmt → List Nat
  | [] => []
  | s :: ss => s.savedOperands ++ Stmt.savedOperandsAll ss

end

def Task.savedOperands : Task → List Nat
  | .stmt s => s.savedOperands
  | .seq ss => Stmt.savedOperandsAll ss
  | .loop condition update body =>
    0 :: (Expr.savedOperandsTest condition ++
      (body.savedOperands ++ (Expr.savedOperandsOption update ++ [0, 0])))

theorem Stmt.savedOperands_getD (o : Option Stmt) :
    (o.getD .empty).savedOperands = Stmt.savedOperandsOption o := by
  cases o <;> simp [Stmt.savedOperandsOption, Stmt.savedOperands]

/-! ### Marks -/

/-- What holds at a point: the pushes whose operands wait, innermost first, each
with the code that follows it, and whether the last comparison still counts. -/
structure Mark where
  waiting : List Listing
  tested : Bool

namespace Mark

/-- The mark behind the first line of some code. -/
def next (mark : Mark) : Listing → Mark
  | .instr (.push .eax) :: rest => ⟨(.instr (.push .eax) :: rest) :: mark.waiting, false⟩
  | .instr (.pop .ebx) :: _ => ⟨mark.waiting.tail, false⟩
  | .instr (.arith .cmp _ _) :: _ => ⟨mark.waiting, true⟩
  | .instr (.mov _ _) :: _ => mark
  | _ => ⟨mark.waiting, false⟩

/-- The mark behind some lines that are followed by `rest`. -/
def after (mark : Mark) : Listing → Listing → Mark
  | [], _ => mark
  | line :: ls, rest => (mark.next (line :: (ls ++ rest))).after ls rest

/-- The points of some lines that are followed by `rest`, with their marks. -/
def points (mark : Mark) : Listing → Listing → List (Listing × Mark)
  | [], _ => []
  | line :: ls, rest =>
    (line :: (ls ++ rest), mark) :: (mark.next (line :: (ls ++ rest))).points ls rest

def depth (mark : Mark) : Nat := mark.waiting.length

@[simp] theorem depth_mk (st : List Listing) (b : Bool) : (Mark.mk st b).depth = st.length := rfl

@[simp] theorem after_nil (mark : Mark) (rest : Listing) : mark.after [] rest = mark := rfl

@[simp] theorem after_cons (mark : Mark) (line : Line Instr) (ls rest : Listing) :
    mark.after (line :: ls) rest = (mark.next (line :: (ls ++ rest))).after ls rest := rfl

@[simp] theorem points_nil (mark : Mark) (rest : Listing) : mark.points [] rest = [] := rfl

@[simp] theorem points_cons (mark : Mark) (line : Line Instr) (ls rest : Listing) :
    mark.points (line :: ls) rest =
      (line :: (ls ++ rest), mark) :: (mark.next (line :: (ls ++ rest))).points ls rest := rfl

@[simp] theorem after_append (mark : Mark) (la lb rest : Listing) :
    mark.after (la ++ lb) rest = (mark.after la (lb ++ rest)).after lb rest := by
  induction la generalizing mark with
  | nil => rfl
  | cons line la ih => simp only [List.cons_append, after_cons, ih, List.append_assoc]

@[simp] theorem points_append (mark : Mark) (la lb rest : Listing) :
    mark.points (la ++ lb) rest =
      mark.points la (lb ++ rest) ++ (mark.after la (lb ++ rest)).points lb rest := by
  induction la generalizing mark with
  | nil => rfl
  | cons line la ih => simp only [List.cons_append, points_cons, after_cons, ih, List.append_assoc]

section
variable (st : List Listing) (b : Bool) (rest : Listing)

@[simp] theorem next_push : (Mark.mk st b).next (.instr (.push .eax) :: rest) =
    ⟨(.instr (.push .eax) :: rest) :: st, false⟩ := rfl

@[simp] theorem next_pop (top : Listing) :
    (Mark.mk (top :: st) b).next (.instr (.pop .ebx) :: rest) = ⟨st, false⟩ := rfl

@[simp] theorem next_cmp (r : Register) (o : Operand) :
    (Mark.mk st b).next (.instr (.arith .cmp r o) :: rest) = ⟨st, true⟩ := rfl

@[simp] theorem next_mov (mark : Mark) (r : Register) (o : Operand) :
    mark.next (.instr (.mov r o) :: rest) = mark := rfl

@[simp] theorem next_jmp (l : Label) :
    (Mark.mk st b).next (.instr (.jmp l) :: rest) = ⟨st, false⟩ := rfl

@[simp] theorem next_jumpIf (c : Condition) (l : Label) :
    (Mark.mk st b).next (.instr (.jumpIf c l) :: rest) = ⟨st, false⟩ := rfl

@[simp] theorem next_store (a : Address) (r : Register) :
    (Mark.mk st b).next (.instr (.store a r) :: rest) = ⟨st, false⟩ := rfl

@[simp] theorem next_label (l : Label) : (Mark.mk st b).next (.label l :: rest) = ⟨st, false⟩ := rfl

@[simp] theorem next_caption (s : Stmt) : (Mark.mk st b).next (s.caption :: rest) = ⟨st, false⟩ := rfl

end

theorem next_passed {line : Line Instr} {rest : Listing} {mark : Mark} (h : ∀ i, line ≠ .instr i) :
    mark.next (line :: rest) = ⟨mark.waiting, false⟩ := by
  cases line with
  | instr i => exact absurd rfl (h i)
  | _ => rfl

/-- A point is a place in the code. -/
theorem suffix_of_mem_points {mark : Mark} {ls rest : Listing} {q : Listing × Mark}
    (h : q ∈ mark.points ls rest) : q.1 <:+ ls ++ rest := by
  induction ls generalizing mark with
  | nil => cases h
  | cons line ls ih =>
    rcases List.mem_cons.mp h with rfl | h
    · exact List.suffix_refl _
    · exact (ih h).trans (List.suffix_cons line _)

/-- The start of some lines is a point of them. -/
theorem mem_points_self {ls : Listing} (mark : Mark) (h : ls ≠ []) (rest : Listing) :
    (ls ++ rest, mark) ∈ mark.points ls rest := by
  cases ls with
  | nil => exact absurd rfl h
  | cons line ls => exact List.mem_cons_self

/-- Points are in the order of the code. -/
theorem of_getElem?_points {mark : Mark} {ls rest : Listing} {k : Nat} {q : Listing × Mark}
    (h : (mark.points ls rest)[k]? = some q) : q.1 = ls.drop k ++ rest ∧ k < ls.length := by
  induction ls generalizing mark k with
  | nil => cases h
  | cons line ls ih =>
    cases k with
    | zero =>
      obtain rfl := Option.some.inj h
      exact ⟨rfl, Nat.succ_pos _⟩
    | succ k =>
      obtain ⟨hcode, hlt⟩ := ih h
      exact ⟨hcode, Nat.succ_lt_succ hlt⟩

/-- Behind a point comes the next one, with the next mark. -/
theorem mem_points_next {mark mark' : Mark} {ls rest code : Listing} {line : Line Instr}
    (h : (line :: code, mark') ∈ mark.points ls rest) :
    (code, mark'.next (line :: code)) ∈ mark.points ls rest ∨
      (code = rest ∧ mark'.next (line :: code) = mark.after ls rest) := by
  induction ls generalizing mark with
  | nil => cases h
  | cons first ls ih =>
    rcases List.mem_cons.mp h with h | h
    · obtain ⟨hcode, rfl⟩ := Prod.mk.inj h
      obtain ⟨rfl, rfl⟩ := List.cons.inj hcode
      cases ls with
      | nil => exact .inr ⟨rfl, rfl⟩
      | cons second ls => exact .inl (List.mem_cons_of_mem _ List.mem_cons_self)
    · rcases ih h with h | h
      · exact .inl (List.mem_cons_of_mem _ h)
      · exact .inr h

end Mark

/-! ### Pushes and pops in pairs -/

/-- Lines between which every operand that is saved is taken back. -/
inductive Listing.Balanced : Listing → Prop
  | nil : Balanced []
  | line {line ls} (hpush : line ≠ .instr (.push .eax)) (hpop : line ≠ .instr (.pop .ebx))
    (h : Balanced ls) : Balanced (line :: ls)
  | pair {la lb} (ha : Balanced la) (hb : Balanced lb) :
    Balanced (.instr (.push .eax) :: (la ++ .instr (.pop .ebx) :: lb))

namespace Listing.Balanced

theorem append {la lb : Listing} (ha : la.Balanced) (hb : lb.Balanced) : (la ++ lb).Balanced := by
  induction ha with
  | nil => exact hb
  | line hpush hpop _ ih => exact .line hpush hpop ih
  | @pair la' lb' ha' _ _ ih =>
    rw [List.cons_append, List.append_assoc, List.cons_append]
    exact .pair ha' ih

/-- Lines that save and take back nothing. -/
theorem of_forall : ∀ {ls : Listing},
    (∀ line ∈ ls, line ≠ .instr (.push .eax) ∧ line ≠ .instr (.pop .ebx)) → ls.Balanced
  | [], _ => .nil
  | _ :: _, h => by
    obtain ⟨⟨hpush, hpop⟩, h⟩ := List.forall_mem_cons.mp h
    exact .line hpush hpop (of_forall h)

end Listing.Balanced

/-! ### Lines that keep to their marks -/

/-- Not the stack pointer and not the frame pointer. -/
def Register.isGeneral : Register → Bool
  | .esp | .ebp => false
  | _ => true

/-- An instruction that changes general registers only. -/
def Instr.inRegisters : Instr → Bool
  | .mov r _ | .arith _ r _ | .neg r => r.isGeneral
  | .xchg a b => a.isGeneral && b.isGeneral
  | .cdq | .idiv _ => true
  | _ => false

/-- An instruction that changes general registers only and compares nothing. -/
def Instr.isPlain : Instr → Bool
  | .arith .cmp _ _ => false
  | i => i.inRegisters

/-- Some points with their marks, the variables that the code may write, and how
many operands may wait at a time. -/
structure Chart where
  points : List (Listing × Mark)
  writable : Slot → Prop
  room : Nat

/-- What the first line of some code may be at a point with a given mark. A jump
goes to a point of the chart where the same operands wait. -/
inductive Chart.Admits (chart : Chart) : Listing → Mark → Prop
  | passed {line rest mark} (h : ∀ i, line ≠ .instr i) : Admits chart (line :: rest) mark
  | computes {i rest mark} (h : i.inRegisters = true) : Admits chart (.instr i :: rest) mark
  | writes {s rest mark} (h : chart.writable s) :
    Admits chart (.instr (.store (.slot s) .eax) :: rest) mark
  | saves {rest mark} (h : mark.depth < chart.room) : Admits chart (.instr (.push .eax) :: rest) mark
  | restores {operand rest mark outer} (hb : Listing.Balanced operand)
    (h : mark.waiting = (.instr (.push .eax) :: (operand ++ .instr (.pop .ebx) :: rest)) :: outer) :
    Admits chart (.instr (.pop .ebx) :: rest) mark
  | jumps {l rest rest' mark} (h : (.label l :: rest', ⟨mark.waiting, false⟩) ∈ chart.points) :
    Admits chart (.instr (.jmp l) :: rest) mark
  | branches {c l rest rest' mark} (ht : mark.tested = true)
    (h : (.label l :: rest', ⟨mark.waiting, false⟩) ∈ chart.points) :
    Admits chart (.instr (.jumpIf c l) :: rest) mark

/-! ### Operators -/

theorem Instr.inRegisters_of_isPlain {i : Instr} (h : i.isPlain = true) : i.inRegisters = true := by
  cases i with
  | arith op r o => cases op <;> first | exact h | cases h
  | _ => exact h

section
variable (st : List Listing) (rest : Listing)

theorem Mark.next_of_isPlain {i : Instr} (h : i.isPlain = true) :
    (Mark.mk st false).next (.instr i :: rest) = ⟨st, false⟩ := by
  cases i with
  | push | pop => cases h
  | arith op r o => cases op <;> first | rfl | cases h
  | _ => rfl

variable {is : List Instr} (his : ∀ i ∈ is, i.isPlain = true)
include his

omit st rest in
theorem Listing.Balanced.of_isPlain : Balanced (is.map .instr) := by
  refine .of_forall fun line hline => ?_
  obtain ⟨i, hi, rfl⟩ := List.mem_map.mp hline
  constructor <;> rintro ⟨⟩ <;> cases his _ hi

theorem Mark.after_plain : (Mark.mk st false).after (is.map .instr) rest = ⟨st, false⟩ := by
  induction is with
  | nil => rfl
  | cons i is ih =>
    obtain ⟨hi, his⟩ := List.forall_mem_cons.mp his
    rw [List.map_cons, after_cons, next_of_isPlain st _ hi, ih his]

theorem Mark.points_plain {q : Listing × Mark}
    (h : q ∈ (Mark.mk st false).points (is.map .instr) rest) :
    q.2 = ⟨st, false⟩ ∧ ∃ i code, q.1 = .instr i :: code ∧ i.isPlain = true := by
  induction is with
  | nil => cases h
  | cons i is ih =>
    obtain ⟨hi, his⟩ := List.forall_mem_cons.mp his
    rw [List.map_cons, points_cons, next_of_isPlain st _ hi] at h
    rcases List.mem_cons.mp h with rfl | h
    · exact ⟨rfl, i, _, rfl, hi⟩
    · exact ih his h

end

theorem Mark.length_points (mark : Mark) (ls rest : Listing) :
    (mark.points ls rest).length = ls.length := by
  induction ls generalizing mark with
  | nil => rfl
  | cons line ls ih => rw [points_cons, List.length_cons, List.length_cons, ih]

/-- The code of an eager operator computes in registers, or compares. -/
theorem BinaryOp.emitEager_cases {op : BinaryOp} {n n' : Nat} {ls : Listing} {u : Unit}
    (h : op.emitEager.Gives n ls n' u) :
    (∃ is : List Instr, ls = is.map .instr ∧ is.length = op.lineCount ∧
      ∀ i ∈ is, i.isPlain = true) ∨
    ∃ c, (emitComparison c).Gives n ls n' u ∧ op.lineCount = 5 := by
  cases op with
  | and | or => exact absurd h Emit.gives_fail
  | lt | le | gt | ge | eq | ne => exact .inr ⟨_, h, rfl⟩
  | add => exact .inl ⟨[_], (Emit.gives_instr.mp h).1, rfl, by decide⟩
  | mul => exact .inl ⟨[_], (Emit.gives_instr.mp h).1, rfl, by decide⟩
  | bitAnd => exact .inl ⟨[_], (Emit.gives_instr.mp h).1, rfl, by decide⟩
  | bitOr => exact .inl ⟨[_], (Emit.gives_instr.mp h).1, rfl, by decide⟩
  | sub => exact .inl ⟨[_, _], (Emit.gives_lines.mp h).1, rfl, by decide⟩
  | div => exact .inl ⟨[_, _, _], (Emit.gives_lines.mp h).1, rfl, by decide⟩
  | mod => exact .inl ⟨[_, _, _, _], (Emit.gives_lines.mp h).1, rfl, by decide⟩

theorem UnaryOp.emit_plain {op : UnaryOp} {n n' : Nat} {ls : Listing} {u : Unit}
    (h : op.emit.Gives n ls n' u) : ∃ i : Instr, ls = [.instr i] ∧ i.isPlain = true := by
  cases op with
  | minus => exact ⟨_, (Emit.gives_instr.mp h).1, rfl⟩
  | not => exact ⟨_, (Emit.gives_instr.mp h).1, rfl⟩

section
variable {op : BinaryOp} {n n' : Nat} {ls : Listing} {u : Unit} {chart : Chart}
  (h : op.emitEager.Gives n ls n' u) (st : List Listing) (rest : Listing)
include h

omit st rest in
theorem BinaryOp.balanced_emitEager : ls.Balanced := by
  rcases BinaryOp.emitEager_cases h with ⟨is, rfl, -, his⟩ | ⟨c, h, -⟩
  · exact .of_isPlain his
  · simp only [emitComparison, Emit.gives_fresh_bind, Emit.gives_lines] at h
    obtain ⟨rfl, rfl⟩ := h
    exact .of_forall (by simp)

theorem BinaryOp.after_emitEager : (Mark.mk st false).after ls rest = ⟨st, false⟩ := by
  rcases BinaryOp.emitEager_cases h with ⟨is, rfl, -, his⟩ | ⟨c, h, -⟩
  · exact Mark.after_plain st rest his
  · simp only [emitComparison, Emit.gives_fresh_bind, Emit.gives_lines] at h
    obtain ⟨rfl, rfl⟩ := h
    rfl

theorem BinaryOp.map_depth_emitEager :
    ((Mark.mk st false).points ls rest).map (·.2.depth) = List.replicate op.lineCount st.length := by
  rcases BinaryOp.emitEager_cases h with ⟨is, rfl, hlength, his⟩ | ⟨c, h, hlength⟩
  · rw [List.eq_replicate_iff, List.length_map, Mark.length_points, List.length_map]
    refine ⟨hlength, fun d hd => ?_⟩
    obtain ⟨q, hq, rfl⟩ := List.mem_map.mp hd
    rw [(Mark.points_plain st rest his hq).1, Mark.depth]
  · simp only [emitComparison, Emit.gives_fresh_bind, Emit.gives_lines] at h
    obtain ⟨rfl, rfl⟩ := h
    rw [hlength]
    rfl

theorem BinaryOp.admits_emitEager (hpoints : (Mark.mk st false).points ls rest ⊆ chart.points) :
    ∀ q ∈ (Mark.mk st false).points ls rest, chart.Admits q.1 q.2 := by
  rcases BinaryOp.emitEager_cases h with ⟨is, rfl, -, his⟩ | ⟨c, h, -⟩
  · intro q hq
    obtain ⟨-, i, code, hcode, hi⟩ := Mark.points_plain st rest his hq
    rw [hcode]
    exact .computes (Instr.inRegisters_of_isPlain hi)
  · simp only [emitComparison, Emit.gives_fresh_bind, Emit.gives_lines] at h
    obtain ⟨rfl, rfl⟩ := h
    simp only [Mark.points_cons, Mark.points_nil, Mark.next_cmp, Mark.next_mov, Mark.next_jumpIf,
      List.cons_subset, List.forall_mem_cons] at hpoints ⊢
    obtain ⟨-, -, -, -, hdone, -⟩ := hpoints
    exact ⟨.computes rfl, .computes rfl, .branches rfl hdone, .computes rfl, .passed (by simp),
      List.forall_mem_nil _⟩

end

section
variable {chart : Chart} (st : List Listing) (c : Condition) (l : Label) (rest : Listing)

@[simp] theorem Mark.after_jumpOn : (Mark.mk st false).after (jumpOn c l) rest = ⟨st, false⟩ := rfl

theorem Mark.map_depth_jumpOn :
    ((Mark.mk st false).points (jumpOn c l) rest).map (·.2.depth) = [st.length, st.length] := rfl

variable {st l} in
theorem Chart.admits_jumpOn {rest' : Listing} (h : (.label l :: rest', ⟨st, false⟩) ∈ chart.points) :
    ∀ q ∈ (Mark.mk st false).points (jumpOn c l) rest, chart.Admits q.1 q.2 :=
  List.forall_mem_cons.mpr ⟨.computes rfl, List.forall_mem_cons.mpr
    ⟨.branches rfl h, List.forall_mem_nil _⟩⟩

end

/-! ### Expressions -/

namespace ExprCode

variable {f : Frame} {e : Expr} {n n' : Nat} {ls : Listing} {chart : Chart}

theorem balanced (h : ExprCode f e n ls n') : ls.Balanced := by
  induction h with
  | literal _ | name _ => exact .of_forall (by simp)
  | shortCircuit _ _ _ ihl ihr =>
    have htest : ∀ c l, (jumpOn c l).Balanced := fun c l => .of_forall (by simp [jumpOn])
    exact ihl.append ((htest _ _).append (ihr.append (.of_forall (by simp))))
  | eager _ _ _ ho ihl ihr => exact ihl.append (.pair ihr (BinaryOp.balanced_emitEager ho))
  | unary _ ho ih =>
    obtain ⟨i, rfl, hi⟩ := UnaryOp.emit_plain ho
    have hplain : ∀ j ∈ [i], j.isPlain = true := by simpa using hi
    exact ih.append (.of_isPlain hplain)
  | assign _ _ ih => exact ih.append (.of_forall (by simp))

/-- The code of an expression leaves the mark as it was. -/
theorem after (h : ExprCode f e n ls n') (st : List Listing) (rest : Listing) :
    (Mark.mk st false).after ls rest = ⟨st, false⟩ := by
  induction h generalizing st rest with
  | literal _ | name _ => rfl
  | shortCircuit _ _ _ ihl ihr => simp [ihl, ihr]
  | eager _ _ _ ho ihl ihr => simp [ihl, ihr, BinaryOp.after_emitEager ho]
  | unary _ ho ih =>
    obtain ⟨i, rfl, hi⟩ := UnaryOp.emit_plain ho
    simp [ih, Mark.next_of_isPlain _ _ hi]
  | assign _ _ ih => simp [ih]

/-- The marks of the code of an expression are those of the source. -/
theorem map_depth (h : ExprCode f e n ls n') (st : List Listing) (rest : Listing) :
    ((Mark.mk st false).points ls rest).map (·.2.depth) =
      e.savedOperands.map (· + st.length) := by
  induction h generalizing st rest with
  | literal _ | name _ => simp [Expr.savedOperands]
  | shortCircuit hop hl hr ihl ihr =>
    simp [Expr.savedOperands, hop, Mark.map_depth_jumpOn, ihl, ihr, hl.after, hr.after]
  | eager hop hl hr ho ihl ihr =>
    have hone : ∀ d, d + 1 + st.length = d + (st.length + 1) := by omega
    simp [Expr.savedOperands, hop, ihl, ihr, hl.after, hr.after, BinaryOp.map_depth_emitEager ho,
      hone]
  | unary h ho ih =>
    obtain ⟨i, rfl, -⟩ := UnaryOp.emit_plain ho
    simp [Expr.savedOperands, ih, h.after]
  | assign _ h ih => simp [Expr.savedOperands, ih, h.after]

/-- The left operand waits along the whole right one, jumps included. -/
example : (Expr.ofBinary (.ofName "a") .eq
    (.ofBinary (.ofName "b") .and (.ofName "c"))).savedOperands =
      [0, 0, 1, 1, 1, 1, 1, 1, 0, 0, 0, 0, 0] := by decide

/-- The code of an expression keeps to its marks. -/
theorem admits (h : ExprCode f e n ls n')
    (hf : ∀ {name s}, f.lookup? name = some s → chart.writable s) (st : List Listing)
    (rest : Listing) (hroom : st.length + e.operandDepth ≤ chart.room)
    (hpoints : (Mark.mk st false).points ls rest ⊆ chart.points) :
    ∀ q ∈ (Mark.mk st false).points ls rest, chart.Admits q.1 q.2 := by
  induction h generalizing st rest with
  | literal _ | name _ => exact List.forall_mem_cons.mpr ⟨.computes rfl, List.forall_mem_nil _⟩
  | shortCircuit hop hl hr ihl ihr =>
    simp only [Expr.operandDepth, hop, Option.isSome_some, if_true] at hroom
    simp only [Mark.points_append, Mark.points_cons, Mark.points_nil, hl.after, hr.after,
      Mark.after_jumpOn, List.append_subset, List.cons_subset, List.forall_mem_append,
      List.forall_mem_cons] at hpoints ⊢
    obtain ⟨hleft, -, hright, hdone, -⟩ := hpoints
    exact ⟨ihl st _ (by omega) hleft, Chart.admits_jumpOn _ _ hdone, ihr st _ (by omega) hright,
      .passed (by simp), List.forall_mem_nil _⟩
  | eager hop hl hr ho ihl ihr =>
    simp only [Expr.operandDepth, hop, Option.isSome_none, Bool.false_eq_true, if_false] at hroom
    simp only [Mark.points_append, Mark.points_cons, hl.after, hr.after, Mark.next_push, Mark.next_pop,
      List.append_subset, List.cons_subset, List.forall_mem_append, List.forall_mem_cons,
      List.append_assoc, List.cons_append] at hpoints ⊢
    obtain ⟨hleft, -, hright, -, hop⟩ := hpoints
    refine ⟨ihl st _ (by omega) hleft, .saves ?_, ihr _ _ ?_ hright, .restores hr.balanced rfl,
      BinaryOp.admits_emitEager ho st rest hop⟩
    · rw [Mark.depth_mk]
      omega
    · rw [List.length_cons]
      omega
  | unary h ho ih =>
    obtain ⟨i, rfl, hi⟩ := UnaryOp.emit_plain ho
    simp only [Mark.points_append, List.append_subset, List.forall_mem_append] at hpoints ⊢
    refine ⟨ih st _ hroom hpoints.1, List.forall_mem_cons.mpr ⟨?_, List.forall_mem_nil _⟩⟩
    exact .computes (Instr.inRegisters_of_isPlain hi)
  | assign hs h ih =>
    simp only [Mark.points_append, List.append_subset, List.forall_mem_append] at hpoints ⊢
    refine ⟨ih st _ hroom hpoints.1, List.forall_mem_cons.mpr ⟨?_, List.forall_mem_nil _⟩⟩
    exact .writes (hf hs)

end ExprCode

section
variable {f : Frame} {o : Option Expr} {n n' : Nat} {ls : Listing} {chart : Chart} (rest : Listing)

theorem OptionCode.after (h : OptionCode f o n ls n') :
    (Mark.mk [] false).after ls rest = ⟨[], false⟩ := by
  cases h with
  | absent => rfl
  | present h => exact h.after [] rest

theorem OptionCode.map_depth (h : OptionCode f o n ls n') :
    ((Mark.mk [] false).points ls rest).map (·.2.depth) = Expr.savedOperandsOption o := by
  cases h with
  | absent => rfl
  | present h => simp [h.map_depth, Expr.savedOperandsOption]

theorem OptionCode.admits (h : OptionCode f o n ls n')
    (hf : ∀ {name s}, f.lookup? name = some s → chart.writable s)
    (hroom : Expr.operandDepthOption o ≤ chart.room)
    (hpoints : (Mark.mk [] false).points ls rest ⊆ chart.points) :
    ∀ q ∈ (Mark.mk [] false).points ls rest, chart.Admits q.1 q.2 := by
  cases h with
  | absent => exact List.forall_mem_nil _
  | present h => exact h.admits hf [] rest (by simpa [Expr.operandDepthOption] using hroom) hpoints

variable {target : Label}

theorem TestCode.after (h : TestCode f target o n ls n') :
    (Mark.mk [] false).after ls rest = ⟨[], false⟩ := by
  cases h with
  | absent => rfl
  | present h => simp [h.after]

theorem TestCode.map_depth (h : TestCode f target o n ls n') :
    ((Mark.mk [] false).points ls rest).map (·.2.depth) = Expr.savedOperandsTest o := by
  cases h with
  | absent => rfl
  | present h => simp [h.after, h.map_depth, Mark.map_depth_jumpOn, Expr.savedOperandsTest]

theorem TestCode.admits (h : TestCode f target o n ls n')
    (hf : ∀ {name s}, f.lookup? name = some s → chart.writable s)
    (hroom : Expr.operandDepthOption o ≤ chart.room)
    (hpoints : (Mark.mk [] false).points ls rest ⊆ chart.points) {rest' : Listing}
    (htarget : (.label target :: rest', ⟨[], false⟩) ∈ chart.points) :
    ∀ q ∈ (Mark.mk [] false).points ls rest, chart.Admits q.1 q.2 := by
  cases h with
  | absent => exact List.forall_mem_nil _
  | present h =>
    simp only [Mark.points_append, h.after, List.append_subset, List.forall_mem_append] at hpoints ⊢
    exact ⟨h.admits hf [] _ (by simpa [Expr.operandDepthOption] using hroom) hpoints.1,
      Chart.admits_jumpOn _ _ htarget⟩

end

/-! ### Statements -/

/-- The names of a frame mean words that the code may write. -/
theorem Chart.writable_of_lookup? {chart : Chart} {f : Frame} {arguments : Nat}
    (hf : f.Placed arguments) (ha : ∀ b ∈ f.arguments, chart.writable (.argument b.2))
    (hl : ∀ k < f.nextLocal, chart.writable (.localVar k)) {name : String} {s : Slot}
    (h : f.lookup? name = some s) : chart.writable s := by
  rw [f.lookup?_eq] at h
  have hmem := Frame.mem_of_lookup h
  cases s with
  | localVar k => exact hl k (hf.localVar hmem)
  | argument i =>
    rcases List.mem_append.mp hmem with hmem | hmem
    · obtain ⟨b, -, hb⟩ := List.mem_map.mp hmem
      cases (Prod.mk.inj hb).2
    · obtain ⟨b, hb, he⟩ := List.mem_map.mp hmem
      exact Slot.argument.inj (Prod.mk.inj he).2 ▸ ha b hb

namespace TaskCode

variable {exit : Label} {f f' : Frame} {t : Task} {n n' : Nat} {ls : Listing} {chart : Chart}

/-- The code of a task leaves the mark as it was. -/
theorem after (h : TaskCode exit f t n ls n' f') (rest : Listing) :
    (Mark.mk [] false).after ls rest = ⟨[], false⟩ := by
  induction h generalizing rest with
  | expr h => simp [h.after]
  | localVar h => simp [h.after]
  | branch hc _ ih => simp [hc.after, ih]
  | branchElse hc _ _ iht ihe => simp [hc.after, iht, ihe]
  | whileLoop _ ih => simp [ih]
  | forLoop _ _ ihi ih => simp [ihi, ih]
  | ret h => simp [h.after]
  | block _ ih => exact ih rest
  | empty | nil => rfl
  | cons _ _ ih ihs => simp [ih, ihs]
  | loop hc _ hu ih => simp [hc.after, ih, hu.after]

/-- The marks of the code of a task are those of the source. -/
theorem map_depth (h : TaskCode exit f t n ls n' f') (rest : Listing) :
    ((Mark.mk [] false).points ls rest).map (·.2.depth) = t.savedOperands := by
  induction h generalizing rest with
  | expr h => simp [h.map_depth, Task.savedOperands, Stmt.savedOperands]
  | localVar h => simp [h.after, h.map_depth, Task.savedOperands, Stmt.savedOperands]
  | branch hc ht ih =>
    simp [hc.after, hc.map_depth, ht.after, ih, Mark.map_depth_jumpOn, Task.savedOperands,
      Stmt.savedOperands, Stmt.savedOperandsElse]
  | branchElse hc ht he iht ihe =>
    simp [hc.after, hc.map_depth, ht.after, he.after, iht, ihe, Mark.map_depth_jumpOn,
      Task.savedOperands, Stmt.savedOperands, Stmt.savedOperandsElse]
  | whileLoop h ih =>
    simp [ih, Task.savedOperands, Stmt.savedOperands, Expr.savedOperandsOption]
  | forLoop hi h ihi ih =>
    simp [hi.after, ihi, ih, Task.savedOperands, Stmt.savedOperands, Stmt.savedOperands_getD]
  | ret h => simp [h.after, h.map_depth, Task.savedOperands, Stmt.savedOperands]
  | block _ ih => simp [ih, Task.savedOperands, Stmt.savedOperands]
  | empty | nil => simp [Task.savedOperands, Stmt.savedOperands, Stmt.savedOperandsAll]
  | cons h hs ih ihs => simp [h.after, ih, ihs, Task.savedOperands, Stmt.savedOperandsAll]
  | loop hc hb hu ih =>
    simp [hc.after, hc.map_depth, hb.after, ih, hu.after, hu.map_depth, Task.savedOperands]

/-- The code of a task keeps to its marks, in a chart where its routine ends at
a point at which no operand waits. -/
theorem admits {arguments : Nat} {last : Listing} (h : TaskCode exit f t n ls n' f')
    (hf : f.Placed arguments) (ha : ∀ b ∈ f.arguments, chart.writable (.argument b.2))
    (hl : ∀ k < f'.nextLocal, chart.writable (.localVar k)) (rest : Listing)
    (hroom : t.operandDepth ≤ chart.room)
    (hpoints : (Mark.mk [] false).points ls rest ⊆ chart.points)
    (hexit : (.label exit :: last, ⟨[], false⟩) ∈ chart.points) :
    ∀ q ∈ (Mark.mk [] false).points ls rest, chart.Admits q.1 q.2 := by
  -- the names of a frame on the way are in the frame at the end
  have hwritable : ∀ {g g' : Frame}, g.Placed arguments →
      (∀ b ∈ g.arguments, chart.writable (.argument b.2)) → g.Grows g' →
      (∀ k < g'.nextLocal, chart.writable (.localVar k)) →
      ∀ {name s}, g.lookup? name = some s → chart.writable s := by
    intro g g' hg hga hgrows hgl name s hs
    exact Chart.writable_of_lookup? hg hga
      (fun k hk => hgl k (Nat.lt_of_lt_of_le hk hgrows.nextLocal)) hs
  induction h generalizing rest with
  | expr h =>
    simp only [Task.operandDepth, Stmt.operandDepth] at hroom
    simp only [Mark.points_cons, Mark.next_caption, List.cons_subset, List.forall_mem_cons] at hpoints ⊢
    exact ⟨.passed (by simp [Stmt.caption]),
      h.admits (hwritable hf ha (.refl _) hl) [] _ (by simpa using hroom) hpoints.2⟩
  | @localVar f type ident e n n' la sp h =>
    simp only [Task.operandDepth, Stmt.operandDepth] at hroom
    simp only [Mark.points_cons, Mark.points_append, Mark.points_nil, Mark.next_caption, h.after,
      List.cons_subset, List.append_subset, List.forall_mem_cons, List.forall_mem_append] at hpoints ⊢
    refine ⟨.passed (by simp [Stmt.caption]),
      h.admits (hwritable hf ha (.declare _ _) hl) [] _ (by simpa using hroom) hpoints.2.1, .writes ?_,
      List.forall_mem_nil _⟩
    exact hl f.nextLocal (Nat.lt_succ_self _)
  | branch hc ht ih =>
    simp only [Task.operandDepth, Stmt.operandDepth] at hroom ih
    simp only [Mark.points_cons, Mark.points_append, Mark.points_nil, Mark.next_caption, hc.after,
      ht.after, Mark.after_jumpOn, List.cons_subset, List.append_subset, List.forall_mem_cons,
      List.forall_mem_append] at hpoints ⊢
    obtain ⟨-, hcond, -, hthen, hend, -⟩ := hpoints
    exact ⟨.passed (by simp [Stmt.caption]),
      hc.admits (hwritable hf ha ht.grows hl) [] _ (by rw [List.length_nil]; omega) hcond,
      Chart.admits_jumpOn _ _ hend, ih hf ha hl _ (by omega) hthen, .passed (by simp),
      List.forall_mem_nil _⟩
  | branchElse hc ht he iht ihe =>
    simp only [Task.operandDepth, Stmt.operandDepth, Stmt.operandDepthOption] at hroom iht ihe
    simp only [Mark.points_cons, Mark.points_append, Mark.points_nil, Mark.next_caption, hc.after,
      ht.after, he.after, Mark.after_jumpOn, Mark.next_jmp, Mark.next_label, List.cons_subset,
      List.append_subset, List.forall_mem_cons, List.forall_mem_append] at hpoints ⊢
    obtain ⟨-, hcond, -, hthen, -, hother, helse, hend, -⟩ := hpoints
    have hl₁ : ∀ k < _, chart.writable (.localVar k) :=
      fun k hk => hl k (Nat.lt_of_lt_of_le hk he.grows.nextLocal)
    exact ⟨.passed (by simp [Stmt.caption]),
      hc.admits (hwritable hf ha ht.grows hl₁) [] _ (by rw [List.length_nil]; omega) hcond,
      Chart.admits_jumpOn _ _ hother, iht hf ha hl₁ _ (by omega) hthen, .jumps hend,
      .passed (by simp),
      ihe (ht.placed hf) (ht.grows.arguments ▸ ha) hl _ (by omega) helse, .passed (by simp),
      List.forall_mem_nil _⟩
  | whileLoop h ih =>
    simp only [Mark.points_cons, Mark.next_caption, List.cons_subset, List.forall_mem_cons] at hpoints ⊢
    refine ⟨.passed (by simp [Stmt.caption]), ih hf ha hl _ ?_ hpoints.2⟩
    simp only [Task.operandDepth, Stmt.operandDepth, Expr.operandDepthOption] at hroom ⊢
    omega
  | forLoop hi h ihi ih =>
    simp only [Task.operandDepth, Stmt.operandDepth, Stmt.operandDepth_getD] at hroom ihi ih
    simp only [Mark.points_cons, Mark.points_append, Mark.next_caption, hi.after, List.cons_subset,
      List.append_subset, List.forall_mem_cons, List.forall_mem_append] at hpoints ⊢
    have hl₁ : ∀ k < _, chart.writable (.localVar k) :=
      fun k hk => hl k (Nat.lt_of_lt_of_le hk h.grows.nextLocal)
    exact ⟨.passed (by simp [Stmt.caption]), ihi hf.enter ha hl₁ _ (by omega) hpoints.2.1,
      ih (hi.placed hf.enter) (hi.grows.arguments ▸ ha) hl _ (by omega) hpoints.2.2⟩
  | ret h =>
    simp only [Task.operandDepth, Stmt.operandDepth] at hroom
    simp only [Mark.points_cons, Mark.points_append, Mark.points_nil, Mark.next_caption, h.after,
      List.cons_subset, List.append_subset, List.forall_mem_cons, List.forall_mem_append] at hpoints ⊢
    exact ⟨.passed (by simp [Stmt.caption]),
      h.admits _ (hwritable hf ha (.refl _) hl) hroom hpoints.2.1, .jumps hexit, List.forall_mem_nil _⟩
  | block _ ih =>
    simp only [Task.operandDepth, Stmt.operandDepth] at hroom
    exact ih hf.enter ha hl rest hroom hpoints
  | empty | nil => exact List.forall_mem_nil _
  | cons h hs ih ihs =>
    simp only [Task.operandDepth, Stmt.operandDepthAll] at hroom ih ihs
    simp only [Mark.points_append, h.after, List.append_subset, List.forall_mem_append] at hpoints ⊢
    have hl₁ : ∀ k < _, chart.writable (.localVar k) :=
      fun k hk => hl k (Nat.lt_of_lt_of_le hk hs.grows.nextLocal)
    exact ⟨ih hf ha hl₁ _ (by omega) hpoints.1,
      ihs (h.placed hf) (h.grows.arguments ▸ ha) hl _ (by omega) hpoints.2⟩
  | loop hc hb hu ih =>
    simp only [Task.operandDepth] at hroom ih
    simp only [Mark.points_cons, Mark.points_append, Mark.points_nil, Mark.next_label, Mark.next_jmp,
      hc.after, hb.after, hu.after, List.cons_subset, List.append_subset, List.forall_mem_cons,
      List.forall_mem_append] at hpoints ⊢
    obtain ⟨hstart, htest, hbody, hupdate, -, hdone, -⟩ := hpoints
    exact ⟨.passed (by simp),
      hc.admits _ (hwritable hf ha hb.grows hl) (by omega) htest hdone,
      ih hf ha hl _ (by omega) hbody,
      hu.admits _ (hwritable (hb.placed hf) (hb.grows.arguments ▸ ha) (.refl _) hl) (by omega) hupdate,
      .jumps hstart, .passed (by simp), List.forall_mem_nil _⟩

end TaskCode
end ClassCompiler
