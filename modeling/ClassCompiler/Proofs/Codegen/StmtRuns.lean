import ClassCompiler.Proofs.Codegen.ExprRuns

/-!
# Running the code of statements

A run of a statement in the reference semantics is followed by the machine: if
it ends at its end, the machine comes to the end of the code and holds the
variables that are left; if it ends by a return, the machine comes to the one
end of the routine with the value in `eax`.

The parts of branches and loops declare no variables of their own outside of a
block, so that the frame behind them is the frame before them whichever way the
machine took (`TaskCode.bindings_eq`).

Key definitions: `Stmt.isScoped`, `Stmt.operandDepth`, `Activation.Reaches`,
`Activation.Follows`.

Key theorem: `Runs.follows`.
-/

namespace ClassCompiler

/-! ### What a routine asks of its body and of the stack -/

def Stmt.isDeclaration : Stmt → Bool
  | .localVar .. => true
  | _ => false

mutual

/-- Local variables are declared directly in a block or at the start of a loop
only. -/
def Stmt.isScoped : Stmt → Bool
  | .branch _ thenPart elsePart _ =>
    !thenPart.isDeclaration && thenPart.isScoped && Stmt.isScopedPart elsePart
  | .whileLoop _ body _ => !body.isDeclaration && body.isScoped
  | .forLoop init _ _ body _ =>
    Stmt.isScopedOption init && (!body.isDeclaration && body.isScoped)
  | .block statements _ => Stmt.isScopedAll statements
  | .expr .. | .localVar .. | .ret .. | .empty => true

/-- The other part of a branch. -/
def Stmt.isScopedPart : Option Stmt → Bool
  | none => true
  | some s => !s.isDeclaration && s.isScoped

def Stmt.isScopedOption : Option Stmt → Bool
  | none => true
  | some s => s.isScoped

def Stmt.isScopedAll : List Stmt → Bool
  | [] => true
  | s :: ss => s.isScoped && Stmt.isScopedAll ss

end

def Expr.operandDepthOption : Option Expr → Nat
  | none => 0
  | some e => e.operandDepth

mutual

/-- How many operands wait on the stack at a time, in any expression of a
statement. -/
def Stmt.operandDepth : Stmt → Nat
  | .expr e _ => e.operandDepth
  | .localVar _ _ initializer _ => initializer.operandDepth
  | .branch condition thenPart elsePart _ =>
    max condition.operandDepth (max thenPart.operandDepth (Stmt.operandDepthOption elsePart))
  | .whileLoop condition body _ => max condition.operandDepth body.operandDepth
  | .forLoop init condition update body _ =>
    max (Stmt.operandDepthOption init)
      (max (Expr.operandDepthOption condition)
        (max (Expr.operandDepthOption update) body.operandDepth))
  | .ret value _ => Expr.operandDepthOption value
  | .block statements _ => Stmt.operandDepthAll statements
  | .empty => 0

def Stmt.operandDepthOption : Option Stmt → Nat
  | none => 0
  | some s => s.operandDepth

def Stmt.operandDepthAll : List Stmt → Nat
  | [] => 0
  | s :: ss => max s.operandDepth (Stmt.operandDepthAll ss)

end

namespace Task

def isScoped : Task → Bool
  | .stmt s => s.isScoped
  | .seq ss => Stmt.isScopedAll ss
  | .loop _ _ body => !body.isDeclaration && body.isScoped

/-- A task that may leave names in the innermost scope. -/
def declares : Task → Bool
  | .stmt s => s.isDeclaration
  | .seq _ => true
  | .loop .. => false

def operandDepth : Task → Nat
  | .stmt s => s.operandDepth
  | .seq ss => Stmt.operandDepthAll ss
  | .loop condition update body =>
    max (Expr.operandDepthOption condition)
      (max (Expr.operandDepthOption update) body.operandDepth)

end Task

theorem Stmt.isScoped_getD (o : Option Stmt) : (o.getD .empty).isScoped = Stmt.isScopedOption o := by
  cases o <;> simp [Stmt.isScopedOption, Stmt.isScoped]

theorem Stmt.operandDepth_getD (o : Option Stmt) :
    (o.getD .empty).operandDepth = Stmt.operandDepthOption o := by
  cases o <;> simp [Stmt.operandDepthOption, Stmt.operandDepth]

/-- A task that declares nothing leaves the scopes as it found them. -/
theorem TaskCode.scopes_eq {exit : Label} {f f' : Frame} {t : Task} {n n' : Nat} {ls : Listing}
    (h : TaskCode exit f t n ls n' f') (hs : t.isScoped = true) (hd : t.declares = false) :
    f'.scopes = f.scopes := by
  induction h with
  | expr _ | ret _ | empty => rfl
  | localVar _ | nil | cons _ _ => cases hd
  | branch _ _ ih =>
    simp only [Task.isScoped, Stmt.isScoped, Bool.and_eq_true, Bool.not_eq_true'] at hs
    exact ih hs.1.2 hs.1.1
  | branchElse _ _ _ iht ihe =>
    simp only [Task.isScoped, Stmt.isScoped, Stmt.isScopedPart, Bool.and_eq_true,
      Bool.not_eq_true'] at hs
    exact (ihe hs.2.2 hs.2.1).trans (iht hs.1.2 hs.1.1)
  | whileLoop _ ih =>
    simp only [Task.isScoped, Stmt.isScoped] at hs
    exact ih hs rfl
  | forLoop hi h => exact (hi.grows.trans h.grows).exit_scopes
  | block h => exact h.grows.exit_scopes
  | loop _ _ _ ih =>
    simp only [Task.isScoped, Bool.and_eq_true, Bool.not_eq_true'] at hs
    exact ih hs.2 hs.1

theorem TaskCode.bindings_eq {exit : Label} {f f' : Frame} {t : Task} {n n' : Nat} {ls : Listing}
    (h : TaskCode exit f t n ls n' f') (hs : t.isScoped = true) (hd : t.declares = false) :
    f'.bindings = f.bindings :=
  Frame.bindings_eq (h.scopes_eq hs hd) h.grows.arguments

/-! ### The machine follows the run -/

section
variable {p : Program} {a : Activation} {f f' f₁ f₂ : Frame} {vars vars' : Variables}
  {m m' : Machine} {rest rest' tail : Listing}

theorem OptionCode.updated (hp : p.lines.labels.Nodup) (ha : a.Fits) (hf : a.Covers f)
    {o : Option Expr} {n n' : Nat} {ls : Listing} (h : OptionCode f o n ls n')
    (hv : Expr.update vars o = some vars') (hin : ls ++ rest <:+ p.lines)
    (hd : Expr.operandDepthOption o ≤ a.operands) (hm : a.Holds f 0 vars m) :
    ∃ m', p.Steps ⟨ls ++ rest, m⟩ ⟨rest, m'⟩ ∧ a.Holds f 0 vars' m' ∧ a.Keeps 0 m m' := by
  cases h with
  | absent =>
    obtain rfl := Option.some.inj hv
    exact ⟨m, .refl _, hm, .refl 0 m⟩
  | present h =>
    obtain ⟨⟨v, _⟩, hv', rfl⟩ := Option.map_eq_some_iff.mp hv
    obtain ⟨m', hs, ev⟩ := h.evaluated hp ha hf hv' hin ((Nat.zero_add _).symm ▸ hd) hm
    exact ⟨m', hs, ev.holds, ev.keeps⟩

theorem Condition.equal_holds_bool (b : Bool) :
    Condition.holds .equal (Value.bool b).word 0 = !b := by
  cases b <;> decide

/-- A condition goes on in the code or leaves it for a label. -/
theorem ExprCode.tested (hp : p.lines.labels.Nodup) (ha : a.Fits) (hf : a.Covers f) {e : Expr}
    {n n' : Nat} {ls : Listing} {target : Label} {b : Bool} (h : ExprCode f e n ls n')
    (hv : e.eval vars = some (.bool b, vars')) (hin : ls ++ (jumpOn .equal target ++ rest) <:+ p.lines)
    (hl : .label target :: rest' <:+ p.lines) (hd : e.operandDepth ≤ a.operands)
    (hm : a.Holds f 0 vars m) :
    ∃ m', p.Steps ⟨ls ++ (jumpOn .equal target ++ rest), m⟩ ⟨if b then rest else rest', m'⟩ ∧
      a.Holds f 0 vars' m' ∧ a.Keeps 0 m m' := by
  obtain ⟨m', hs, ev⟩ := h.evaluated hp ha hf hv hin ((Nat.zero_add _).symm ▸ hd) hm
  have hjump := Program.Steps.jumpOn hp hl .equal rest m'
  rw [ev.value, Condition.equal_holds_bool] at hjump
  refine ⟨_, ?_, ev.holds.setCompared (some ((Value.bool b).word, 0)), ev.keeps⟩
  cases b <;> exact hs.trans hjump

theorem TestCode.tested (hp : p.lines.labels.Nodup) (ha : a.Fits) (hf : a.Covers f)
    {o : Option Expr} {n n' : Nat} {ls : Listing} {target : Label} {b : Bool}
    (h : TestCode f target o n ls n') (hv : Expr.test vars o = some (b, vars'))
    (hin : ls ++ rest <:+ p.lines) (hl : .label target :: rest' <:+ p.lines)
    (hd : Expr.operandDepthOption o ≤ a.operands) (hm : a.Holds f 0 vars m) :
    ∃ m', p.Steps ⟨ls ++ rest, m⟩ ⟨if b then rest else rest', m'⟩ ∧ a.Holds f 0 vars' m' ∧
      a.Keeps 0 m m' := by
  cases h with
  | absent =>
    obtain ⟨rfl, rfl⟩ := Prod.mk.inj (Option.some.inj hv)
    exact ⟨m, .refl _, hm, .refl 0 m⟩
  | present h =>
    rw [List.append_assoc] at hin ⊢
    simp only [Expr.test] at hv
    split at hv
    · rename_i hv'
      obtain ⟨rfl, rfl⟩ := Prod.mk.inj (Option.some.inj hv)
      exact h.tested hp ha hf hv' hin hl hd hm
    · cases hv

/-- From `m` at `code` the machine comes to the ending of a task: to `rest`, or
to the `tail` of the routine. -/
def Activation.Reaches (a : Activation) (p : Program) (f : Frame) (rest tail code : Listing)
    (m : Machine) : Ending → Prop
  | .completed vars => ∃ m', p.Steps ⟨code, m⟩ ⟨rest, m'⟩ ∧ a.Holds f 0 vars m' ∧ a.Keeps 0 m m'
  | .returned v => ∃ m', p.Steps ⟨code, m⟩ ⟨tail, m'⟩ ∧ m'.registers .ebp = a.base ∧
      (∀ w, v = some w → m'.registers .eax = w.word) ∧ a.Keeps 0 m m'

namespace Activation.Reaches

variable {code code' : Listing} {out out' : Ending}

/-- Steps before. -/
theorem of_steps (h : a.Reaches p f rest tail code' m' out) (hs : p.Steps ⟨code, m⟩ ⟨code', m'⟩)
    (hk : a.Keeps 0 m m') : a.Reaches p f rest tail code m out := by
  cases out with
  | completed vars =>
    obtain ⟨m₁, hs₁, hm₁, hk₁⟩ := h
    exact ⟨m₁, hs.trans hs₁, hm₁, hk.trans hk₁⟩
  | returned v =>
    obtain ⟨m₁, hs₁, hb, hv, hk₁⟩ := h
    exact ⟨m₁, hs.trans hs₁, hb, hv, hk.trans hk₁⟩

/-- Another task after one that came to its end. -/
theorem bind (h : a.Reaches p f rest tail code m out)
    (hc : ∀ vars m', out = .completed vars → a.Holds f 0 vars m' →
      a.Reaches p f' rest' tail rest m' out')
    (hr : ∀ v, out = .returned v → out' = .returned v) :
    a.Reaches p f' rest' tail code m out' := by
  cases out with
  | completed vars =>
    obtain ⟨m', hs, hm', hk⟩ := h
    exact (hc vars m' rfl hm').of_steps hs hk
  | returned v =>
    obtain rfl := hr v rfl
    exact h

/-- Steps behind, to where the frame binds the same names. -/
theorem goOn (h : a.Reaches p f rest tail code m out) (hb : f'.bindings = f.bindings)
    (hs : ∀ m', p.Steps ⟨rest, m'⟩ ⟨rest', m'⟩) : a.Reaches p f' rest' tail code m out :=
  h.bind (fun _ m' ho hm' => ho ▸ ⟨m', hs m', hm'.congr hb, .refl 0 m'⟩) fun _ h => h

/-- The end of a scope. -/
theorem leave (h : a.Reaches p f' rest tail code m out) (hm : a.Holds f 0 vars m')
    (hg : f.enter.Grows f') : a.Reaches p f'.exit rest tail code m (out.leave vars.length) :=
  h.bind (fun _ m₁ ho hm₁ => ho ▸ ⟨m₁, .refl _, hm.leave hm₁ hg, .refl 0 m₁⟩) fun v h => by rw [h]; rfl

end Activation.Reaches

/-- A program that holds the code of a routine, up to its end, and an
activation that there is room for. -/
structure Activation.Hosts (a : Activation) (p : Program) (exit : Label) (tail : Listing) : Prop where
  labels : p.lines.labels.Nodup
  fits : a.Fits
  exit : .label exit :: tail <:+ p.lines

/-- The code of a task, from one frame to another, that an activation has the
words for. -/
structure Activation.Ready (a : Activation) (p : Program) (exit : Label) (f : Frame) (t : Task)
    (ls rest : Listing) (f' : Frame) : Prop where
  code : ∃ n n', TaskCode exit f t n ls n' f'
  isScoped : t.isScoped = true
  placed : f.Placed a.arguments
  locals : f'.nextLocal ≤ a.locals
  operands : t.operandDepth ≤ a.operands
  lines : ls ++ rest <:+ p.lines

/-- The machine follows a run from these variables to this ending. -/
def Activation.Follows (a : Activation) (p : Program) (exit : Label) (tail : Listing)
    (vars : Variables) (t : Task) (out : Ending) : Prop :=
  ∀ ⦃f f' : Frame⦄ ⦃ls rest : Listing⦄ ⦃m : Machine⦄, a.Ready p exit f t ls rest f' →
    a.Holds f 0 vars m → a.Reaches p f' rest tail (ls ++ rest) m out

namespace Activation.Follows

variable {exit : Label} {out : Ending} {e c : Expr} {v : Value} {b : Bool} {s body : Stmt}
  {ss : List Stmt} {condition update : Option Expr} {sp : Span}

theorem expr (hh : a.Hosts p exit tail) (hv : e.eval vars = some (v, vars')) :
    a.Follows p exit tail vars (.stmt (.expr e sp)) (.completed vars') := by
  intro f f' ls rest m hr hm
  obtain ⟨n, n', hcode⟩ := hr.code
  cases hcode with
  | expr hcode =>
    obtain ⟨m', hs, ev⟩ := hcode.evaluated hh.labels hh.fits ⟨hr.placed, hr.locals⟩ hv
      (Listing.after [_] hr.lines) ((Nat.zero_add _).symm ▸ hr.operands) hm
    exact ⟨m', (Program.Steps.comment _).trans hs, ev.holds, ev.keeps⟩

theorem localVar (hh : a.Hosts p exit tail) {type : TypeRef} {ident : String}
    (hv : e.eval vars = some (v, vars')) :
    a.Follows p exit tail vars (.stmt (.localVar type ident e sp))
      (.completed (vars'.declare ident v)) := by
  intro f f' ls rest m hr hm
  obtain ⟨n, n', hcode⟩ := hr.code
  cases hcode with
  | @localVar _ _ _ _ _ _ la _ hcode =>
    have hf' : a.Covers (f.declare ident) := ⟨hr.placed.declare ident, hr.locals⟩
    have hf : a.Covers f := ⟨hr.placed, Nat.le_of_succ_le hr.locals⟩
    have hin := hr.lines
    rw [List.cons_append, List.append_assoc] at hin ⊢
    obtain ⟨m', hs, ev⟩ := hcode.evaluated hh.labels hh.fits hf hv (Listing.after [_] hin)
      ((Nat.zero_add _).symm ▸ hr.operands) hm
    have hstore : m'.exec p.symbols (.store (.slot f.nextSlot) .eax) =
        some (m'.setMem (a.address (.slot f.nextSlot)) v.word) := by
      rw [Machine.exec, ev.holds.slot_address, ev.value]
    have hslot : a.Has (.slot f.nextSlot) := hr.locals
    exact ⟨_, (Program.Steps.comment _).trans (hs.trans (.instr hstore)),
      ev.holds.declare hh.fits hf' v, ev.keeps.trans (.setMem hh.fits hslot id _ _)⟩

theorem nothing {t : Task} (ht : t = .stmt .empty ∨ t = .seq []) :
    a.Follows p exit tail vars t (.completed vars) := by
  intro f f' ls rest m hr hm
  obtain ⟨n, n', hcode⟩ := hr.code
  rcases ht with rfl | rfl <;> cases hcode <;> exact ⟨m, .refl _, hm, .refl 0 m⟩

theorem ret (hh : a.Hosts p exit tail) :
    a.Follows p exit tail vars (.stmt (.ret none sp)) (.returned none) := by
  intro f f' ls rest m hr hm
  obtain ⟨n, n', hcode⟩ := hr.code
  cases hcode with
  | ret hcode =>
    cases hcode
    exact ⟨m, (Program.Steps.comment _).trans ((Program.Steps.jump hh.labels hh.exit).trans (.label _)),
      hm.base, nofun, .refl 0 m⟩

theorem retValue (hh : a.Hosts p exit tail) (hv : e.eval vars = some (v, vars')) :
    a.Follows p exit tail vars (.stmt (.ret (some e) sp)) (.returned (some v)) := by
  intro f f' ls rest m hr hm
  obtain ⟨n, n', hcode⟩ := hr.code
  cases hcode with
  | ret hcode =>
    cases hcode with
    | present hcode =>
      have hin := hr.lines
      rw [List.cons_append, List.append_assoc] at hin ⊢
      obtain ⟨m', hs, ev⟩ := hcode.evaluated hh.labels hh.fits ⟨hr.placed, hr.locals⟩ hv
        (Listing.after [_] hin) ((Nat.zero_add _).symm ▸ hr.operands) hm
      refine ⟨m', (Program.Steps.comment _).trans (hs.trans
        ((Program.Steps.jump hh.labels hh.exit).trans (.label _))), ev.holds.base, ?_, ev.keeps⟩
      rintro w hw
      obtain rfl := Option.some.inj hw
      exact ev.value

theorem block (h : a.Follows p exit tail vars (.seq ss) out) :
    a.Follows p exit tail vars (.stmt (.block ss sp)) (out.leave vars.length) := by
  intro f f' ls rest m hr hm
  obtain ⟨n, n', hcode⟩ := hr.code
  cases hcode with
  | block hcode =>
    have hbody : a.Ready p exit f.enter (.seq ss) ls rest _ :=
      ⟨⟨n, n', hcode⟩, hr.isScoped, hr.placed.enter, hr.locals, hr.operands, hr.lines⟩
    exact (h hbody (hm.congr rfl)).leave hm hcode.grows

/-- The first statement of several and the others are ready in turn. -/
theorem ready_cons {ls : Listing} (hr : a.Ready p exit f (.seq (s :: ss)) ls rest f') :
    ∃ la lb f₁, ls ++ rest = la ++ (lb ++ rest) ∧ a.Ready p exit f (.stmt s) la (lb ++ rest) f₁ ∧
      a.Ready p exit f₁ (.seq ss) lb rest f' := by
  obtain ⟨n, n', hcode⟩ := hr.code
  obtain ⟨hsc₁, hsc₂⟩ := Bool.and_eq_true_iff.mp hr.isScoped
  have hd : max s.operandDepth (Stmt.operandDepthAll ss) ≤ a.operands := hr.operands
  cases hcode with
  | @cons _ f₁ _ _ _ _ n₁ _ la lb hcode₁ hcode₂ =>
    have hin := hr.lines
    rw [List.append_assoc] at hin
    exact ⟨la, lb, f₁, List.append_assoc .., ⟨⟨n, n₁, hcode₁⟩, hsc₁, hr.placed,
      Nat.le_trans hcode₂.grows.nextLocal hr.locals, Nat.le_trans (Nat.le_max_left ..) hd, hin⟩,
      ⟨n₁, n', hcode₂⟩, hsc₂, hcode₁.placed hr.placed, hr.locals,
      Nat.le_trans (Nat.le_max_right ..) hd, Listing.after _ hin⟩

theorem cons (h : a.Follows p exit tail vars (.stmt s) (.completed vars'))
    (hs : a.Follows p exit tail vars' (.seq ss) out) :
    a.Follows p exit tail vars (.seq (s :: ss)) out := by
  intro f f' ls rest m hr hm
  obtain ⟨la, lb, f₁, hls, hr₁, hr₂⟩ := ready_cons hr
  rw [hls]
  obtain ⟨m', hsteps, hm', hk⟩ := h hr₁ hm
  exact (hs hr₂ hm').of_steps hsteps hk

theorem consReturns {v : Option Value} (h : a.Follows p exit tail vars (.stmt s) (.returned v)) :
    a.Follows p exit tail vars (.seq (s :: ss)) (.returned v) := by
  intro f f' ls rest m hr hm
  obtain ⟨la, lb, f₁, hls, hr₁, -⟩ := ready_cons hr
  rw [hls]
  exact h hr₁ hm

theorem whileLoop (h : a.Follows p exit tail vars (.loop (some c) none body) out) :
    a.Follows p exit tail vars (.stmt (.whileLoop c body sp)) out := by
  intro f f' ls rest m hr hm
  obtain ⟨n, n', hcode⟩ := hr.code
  cases hcode with
  | @whileLoop _ _ _ _ _ _ ls _ hcode =>
    have hd : max c.operandDepth body.operandDepth ≤ a.operands := hr.operands
    have hloop : a.Ready p exit f (.loop (some c) none body) ls rest f' :=
      ⟨⟨n, n', hcode⟩, hr.isScoped, hr.placed, hr.locals,
        by simp only [Task.operandDepth, Expr.operandDepthOption]; omega, Listing.after [_] hr.lines⟩
    exact (h hloop hm).of_steps (.comment _) (.refl 0 m)

/-- The start of a loop and its rounds are ready in turn, in a scope of their own. -/
theorem ready_forLoop {init : Option Stmt} {ls : Listing}
    (hr : a.Ready p exit f (.stmt (.forLoop init condition update body sp)) ls rest f') :
    ∃ la lb f₁ f₂, ls = (Stmt.forLoop init condition update body sp).caption :: (la ++ lb) ∧
      f₂.exit = f' ∧ f.enter.Grows f₂ ∧
      a.Ready p exit f.enter (.stmt (init.getD .empty)) la (lb ++ rest) f₁ ∧
      a.Ready p exit f₁ (.loop condition update body) lb rest f₂ := by
  obtain ⟨n, n', hcode⟩ := hr.code
  obtain ⟨hsc₁, hsc₂⟩ := Bool.and_eq_true_iff.mp hr.isScoped
  have hd : max (Stmt.operandDepthOption init) (Task.operandDepth (.loop condition update body)) ≤
    a.operands := hr.operands
  cases hcode with
  | @forLoop _ f₁ f₂ _ _ _ _ _ n₁ _ la lb _ hcode₁ hcode₂ =>
    have hin : la ++ lb ++ rest <:+ p.lines := Listing.after [_] hr.lines
    rw [List.append_assoc] at hin
    refine ⟨la, lb, f₁, f₂, rfl, rfl, hcode₁.grows.trans hcode₂.grows, ⟨⟨n, n₁, hcode₁⟩, ?_,
      hr.placed.enter, Nat.le_trans hcode₂.grows.nextLocal hr.locals, ?_, hin⟩,
      ⟨n₁, n', hcode₂⟩, hsc₂, hcode₁.placed hr.placed.enter, hr.locals, ?_, Listing.after _ hin⟩
    · exact (Stmt.isScoped_getD init).trans hsc₁
    · exact Nat.le_trans ((Stmt.operandDepth_getD init).symm ▸ Nat.le_max_left ..) hd
    · exact Nat.le_trans (Nat.le_max_right ..) hd

theorem forLoop {init : Option Stmt}
    (hi : a.Follows p exit tail vars (.stmt (init.getD .empty)) (.completed vars'))
    (h : a.Follows p exit tail vars' (.loop condition update body) out) :
    a.Follows p exit tail vars (.stmt (.forLoop init condition update body sp))
      (out.leave vars.length) := by
  intro f f' ls rest m hr hm
  obtain ⟨la, lb, f₁, f₂, rfl, rfl, hg, hr₁, hr₂⟩ := ready_forLoop hr
  rw [List.cons_append, List.append_assoc]
  obtain ⟨m', hsteps, hm', hk⟩ := hi hr₁ (hm.congr rfl)
  exact ((h hr₂ hm').leave hm hg).of_steps ((Program.Steps.comment _).trans hsteps) hk

theorem forInitReturns {init : Option Stmt} {v : Option Value}
    (hi : a.Follows p exit tail vars (.stmt (init.getD .empty)) (.returned v)) :
    a.Follows p exit tail vars (.stmt (.forLoop init condition update body sp)) (.returned v) := by
  intro f f' ls rest m hr hm
  obtain ⟨la, lb, f₁, f₂, rfl, rfl, -, hr₁, -⟩ := ready_forLoop hr
  rw [List.cons_append, List.append_assoc]
  exact (hi hr₁ (hm.congr rfl)).of_steps (.comment _) (.refl 0 m)

theorem branch (hh : a.Hosts p exit tail) {thenPart : Stmt} {elsePart : Option Stmt}
    (hc : c.eval vars = some (.bool b, vars'))
    (h : a.Follows p exit tail vars' (.stmt (if b then thenPart else elsePart.getD .empty)) out) :
    a.Follows p exit tail vars (.stmt (.branch c thenPart elsePart sp)) out := by
  intro f f' ls rest m hr hm
  obtain ⟨n, n', hcode⟩ := hr.code
  have hin := hr.lines
  have hsc := hr.isScoped
  have hd : max c.operandDepth (max thenPart.operandDepth (Stmt.operandDepthOption elsePart)) ≤
    a.operands := hr.operands
  cases hcode with
  | @branch _ f₁ _ _ _ n₁ _ la lb _ hcode₁ hcode₂ =>
    simp only [Task.isScoped, Stmt.isScoped, Bool.and_eq_true, Bool.not_eq_true'] at hsc
    simp only [List.cons_append, List.append_assoc, List.nil_append] at hin ⊢
    have hin := Listing.after [_] hin
    refine Reaches.of_steps ?_ (.comment _) (.refl 0 m)
    have hf : a.Covers f := ⟨hr.placed, Nat.le_trans hcode₂.grows.nextLocal hr.locals⟩
    have hthen := Listing.after _ (Listing.after _ hin)
    have hend : .label (.temporary n) :: rest <:+ p.lines := Listing.after _ hthen
    have hb := hcode₂.bindings_eq hsc.1.2 hsc.1.1
    obtain ⟨m', hs, hm', hk⟩ := hcode₁.tested hh.labels hh.fits hf hc hin hend
      (by omega) hm
    cases b with
    | true =>
      have hready : a.Ready p exit f (.stmt thenPart) lb ([.label (.temporary n)] ++ rest) f' :=
        ⟨⟨n₁, n', hcode₂⟩, hsc.1.2, hr.placed, hr.locals, by simp only [Task.operandDepth]; omega, hthen⟩
      exact ((h hready hm').goOn rfl fun _ => .label _).of_steps hs hk
    | false =>
      have hready : a.Ready p exit f' (.stmt .empty) [] rest f' :=
        ⟨⟨n, n, .empty⟩, rfl, hcode₂.placed hr.placed, hr.locals, Nat.zero_le _, Listing.after [_] hend⟩
      exact (h hready (hm'.congr hb)).of_steps hs hk
  | @branchElse _ f₁ _ _ _ elsePart _ n₁ n₂ _ la lb lc _ hcode₁ hcode₂ hcode₃ =>
    simp only [Task.isScoped, Stmt.isScoped, Stmt.isScopedPart, Bool.and_eq_true,
      Bool.not_eq_true'] at hsc
    simp only [Stmt.operandDepthOption] at hd
    simp only [List.cons_append, List.append_assoc, List.nil_append] at hin ⊢
    have hin := Listing.after [_] hin
    refine Reaches.of_steps ?_ (.comment _) (.refl 0 m)
    have hl₁ : f₁.nextLocal ≤ a.locals := Nat.le_trans hcode₃.grows.nextLocal hr.locals
    have hf : a.Covers f := ⟨hr.placed, Nat.le_trans hcode₂.grows.nextLocal hl₁⟩
    have hthen := Listing.after _ (Listing.after _ hin)
    have hother := Listing.after [_] (Listing.after _ hthen)
    have helse := Listing.after [_] hother
    have hend : .label (.temporary n₂) :: rest <:+ p.lines := Listing.after _ helse
    have hb := hcode₂.bindings_eq hsc.1.2 hsc.1.1
    have hb' := hcode₃.bindings_eq hsc.2.2 hsc.2.1
    obtain ⟨m', hs, hm', hk⟩ := hcode₁.tested hh.labels hh.fits hf hc hin hother
      (by omega) hm
    cases b with
    | true =>
      have hready := h ⟨⟨n₁, n₂, hcode₂⟩, hsc.1.2, hr.placed, hl₁,
        by simp only [Task.operandDepth, if_true]; omega, hthen⟩ hm'
      exact (hready.goOn hb' fun _ => (Program.Steps.jump hh.labels hend).trans (.label _)).of_steps hs hk
    | false =>
      have hready := h ⟨⟨n₂ + 1, n', hcode₃⟩, hsc.2.2, hcode₂.placed hr.placed, hr.locals,
        by simp only [Task.operandDepth]; show elsePart.operandDepth ≤ _; omega, helse⟩ (hm'.congr hb)
      exact (hready.goOn rfl fun _ => .label _).of_steps hs hk

/-- The parts of a loop: from its start the machine comes to the body or
leaves the loop, as the condition says; behind the body it makes the update
and comes back to the start. -/
theorem loop_parts (hh : a.Hosts p exit tail) {ls : Listing}
    (hr : a.Ready p exit f (.loop condition update body) ls rest f') :
    ∃ lb behind, a.Ready p exit f (.stmt body) lb behind f' ∧ f'.bindings = f.bindings ∧
      (∀ {vars vars' b m}, Expr.test vars condition = some (b, vars') → a.Holds f 0 vars m →
        ∃ m', p.Steps ⟨ls ++ rest, m⟩ ⟨if b then lb ++ behind else rest, m'⟩ ∧
          a.Holds f 0 vars' m' ∧ a.Keeps 0 m m') ∧
      ∀ {vars vars' m}, Expr.update vars update = some vars' → a.Holds f' 0 vars m →
        ∃ m', p.Steps ⟨behind, m⟩ ⟨ls ++ rest, m'⟩ ∧ a.Holds f 0 vars' m' ∧ a.Keeps 0 m m' := by
  obtain ⟨n, n', hcode⟩ := hr.code
  obtain ⟨hnd, hsc⟩ := Bool.and_eq_true_iff.mp hr.isScoped
  have hd : max (Expr.operandDepthOption condition)
    (max (Expr.operandDepthOption update) body.operandDepth) ≤ a.operands := hr.operands
  have hin := hr.lines
  cases hcode with
  | @loop _ _ _ _ _ _ n₁ n₂ _ la lb lc htest hbody hupdate =>
    simp only [List.cons_append, List.append_assoc, List.nil_append] at hin ⊢
    have hf : a.Covers f := ⟨hr.placed, Nat.le_trans hbody.grows.nextLocal hr.locals⟩
    have hf' : a.Covers f' := ⟨hbody.placed hr.placed, hr.locals⟩
    have hb : f'.bindings = f.bindings := hbody.bindings_eq hsc (by simpa [Task.declares] using hnd)
    have hbodyIn := Listing.after _ (Listing.after [_] hin)
    have hbehind := Listing.after _ hbodyIn
    have hend := Listing.after [_] (Listing.after _ hbehind)
    refine ⟨lb, _, ⟨⟨n₁, n₂, hbody⟩, hsc, hr.placed, hr.locals, ?_, hbodyIn⟩, hb, ?_, ?_⟩
    · show body.operandDepth ≤ _
      omega
    · intro vars vars' b m hv hm
      obtain ⟨m', hs, hm', hk⟩ := htest.tested hh.labels hh.fits hf hv (Listing.after [_] hin) hend
        (by omega) hm
      exact ⟨m', (Program.Steps.label _).trans hs, hm', hk⟩
    · intro vars vars' m hv hm
      obtain ⟨m', hs, hm', hk⟩ := hupdate.updated hh.labels hh.fits hf' hv hbehind (by omega) hm
      exact ⟨m', hs.trans (.jump hh.labels hin), hm'.congr hb.symm, hk⟩

theorem loopEnds (hh : a.Hosts p exit tail) (hc : Expr.test vars condition = some (false, vars')) :
    a.Follows p exit tail vars (.loop condition update body) (.completed vars') := by
  intro f f' ls rest m hr hm
  obtain ⟨lb, behind, -, hb, htest, -⟩ := loop_parts hh hr
  obtain ⟨m', hs, hm', hk⟩ := htest hc hm
  exact ⟨m', hs, hm'.congr hb, hk⟩

theorem loopReturns (hh : a.Hosts p exit tail) {v : Option Value}
    (hc : Expr.test vars condition = some (true, vars'))
    (h : a.Follows p exit tail vars' (.stmt body) (.returned v)) :
    a.Follows p exit tail vars (.loop condition update body) (.returned v) := by
  intro f f' ls rest m hr hm
  obtain ⟨lb, behind, hbody, -, htest, -⟩ := loop_parts hh hr
  obtain ⟨m', hs, hm', hk⟩ := htest hc hm
  have hreaches : a.Reaches p f' rest tail (lb ++ behind) m' (.returned v) := h hbody hm'
  exact hreaches.of_steps hs hk

theorem loopGoesOn (hh : a.Hosts p exit tail) {vars₁ vars₂ vars₃ : Variables}
    (hc : Expr.test vars condition = some (true, vars₁))
    (h : a.Follows p exit tail vars₁ (.stmt body) (.completed vars₂))
    (hu : Expr.update vars₂ update = some vars₃)
    (hl : a.Follows p exit tail vars₃ (.loop condition update body) out) :
    a.Follows p exit tail vars (.loop condition update body) out := by
  intro f f' ls rest m hr hm
  obtain ⟨lb, behind, hbody, -, htest, hupdate⟩ := loop_parts hh hr
  obtain ⟨m₁, hs₁, hm₁, hk₁⟩ := htest hc hm
  obtain ⟨m₂, hs₂, hm₂, hk₂⟩ := h hbody hm₁
  obtain ⟨m₃, hs₃, hm₃, hk₃⟩ := hupdate hu hm₂
  exact (hl hr hm₃).of_steps (hs₁.trans (hs₂.trans hs₃)) (hk₁.trans (hk₂.trans hk₃))

end Activation.Follows

/-- The machine follows every run. -/
theorem Runs.follows {exit : Label} (hh : a.Hosts p exit tail) {t : Task} {out : Ending}
    (h : Runs vars t out) : a.Follows p exit tail vars t out := by
  induction h with
  | expr hv => exact .expr hh hv
  | localVar hv => exact .localVar hh hv
  | branch hc _ ih => exact .branch hh hc ih
  | whileLoop _ ih => exact .whileLoop ih
  | forLoop _ _ ihi ih => exact .forLoop ihi ih
  | forInitReturns _ ih => exact .forInitReturns ih
  | ret => exact .ret hh
  | retValue hv => exact .retValue hh hv
  | block _ ih => exact .block ih
  | empty => exact .nothing (.inl rfl)
  | nil => exact .nothing (.inr rfl)
  | cons _ _ ih ihs => exact .cons ih ihs
  | consReturns _ ih => exact .consReturns ih
  | loopEnds hc => exact .loopEnds hh hc
  | loopReturns hc _ ih => exact .loopReturns hh hc ih
  | loopGoesOn hc _ hu _ ih ihl => exact .loopGoesOn hh hc ih hu ihl

end
end ClassCompiler
