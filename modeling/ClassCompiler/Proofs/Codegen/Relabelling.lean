import ClassCompiler.Proofs.Codegen.Linking
import ClassCompiler.Proofs.Output.Runs
import Mathlib.Algebra.Ring.Nat

/-!
# Code from another label on

The number of the first temporary label only numbers the labels. Code that is
generated from a later label on has the same lines with later labels, draws as
many labels, and fails where the other fails and in the same way. So the file
of a unit in a program is the code of the unit alone, renumbered by what the
units before it have drawn.

Labels are drawn in one place and used in another, so two generations are
compared piece by piece, where a label that the one piece was given is the
other's label moved (`Emit.Moves`).

Key definitions: `Listing.moved`, `Emission.moved`, `Emit.Moves`.

Key theorems: `Expr.moves_emit` and `Stmt.moves_emit`, `CompilationUnit.emit_eq_moved`,
`generateAll_renumbers`.
-/

namespace ClassCompiler

/-- The label that is `c` labels later. Named labels stay. -/
def Label.moved (c : Nat) : Label → Label
  | .temporary n => .temporary (n + c)
  | .symbol name => .symbol name

def Instr.moved (c : Nat) : Instr → Instr
  | .jmp target => .jmp (target.moved c)
  | .jumpIf condition target => .jumpIf condition (target.moved c)
  | i => i

def Line.moved (c : Nat) : Line Instr → Line Instr
  | .label l => .label (l.moved c)
  | .instr i => .instr (i.moved c)
  | line => line

/-- The same lines with every temporary label `c` labels later. -/
def Listing.moved (c : Nat) (ls : Listing) : Listing := ls.map (Line.moved c)

/-- The same emission with every temporary label `c` labels later. -/
def Emission.moved (c : Nat) (e : Emission α) : Emission α :=
  ⟨e.lines.moved c, e.nextLabel + c, e.result⟩

namespace Listing

theorem moved_append (c : Nat) (as bs : Listing) : moved c (as ++ bs) = as.moved c ++ bs.moved c :=
  List.map_append

/-- Code with named labels only. -/
def Fixed (ls : Listing) : Prop := ∀ c, ls.moved c = ls

theorem Fixed.append {as bs : Listing} (ha : as.Fixed) (hb : bs.Fixed) : Fixed (as ++ bs) := by
  intro c
  rw [moved_append, ha c, hb c]

theorem Fixed.flatMap {as : List α} {f : α → Listing} (h : ∀ a, (f a).Fixed) : Fixed (as.flatMap f) := by
  intro c
  rw [moved, List.map_flatMap]
  exact congrArg (as.flatMap ·) (funext fun a => h a c)

end Listing

open Listing

theorem Routine.fixed_entry (r : Routine) (locals : Nat) : (r.entry locals).Fixed := by
  unfold Routine.entry
  refine .append (fun _ => rfl) ?_
  by_cases hlocals : locals = 0
  · rw [if_pos hlocals]
    exact fun _ => rfl
  · rw [if_neg hlocals]
    exact fun _ => rfl

theorem ClassLayout.fixed_vtableListing (cl : ClassLayout) (typeName : String) :
    (cl.vtableListing typeName).Fixed := by
  have himports : (importedSymbols (Symbol.malloc :: cl.foreignLabels typeName)).Fixed := by
    intro c
    rw [moved, importedSymbols, List.map_map]
    rfl
  have hfill : Fixed (cl.vtable.zipIdx.flatMap fun p => p.1.fill p.2) := .flatMap fun _ _ => rfl
  refine .append (.append (.append (.append (.append (.append ?_ himports) ?_) ?_) ?_) hfill) ?_
  all_goals exact fun _ => rfl

namespace Emit

/-- From `c` labels later on, the second piece of code does what the first one
does, with every temporary label moved. -/
def Moves (c : Nat) (e e' : Emit α) : Prop := ∀ n, e' (n + c) = (e n).moved c

variable {c : Nat}

theorem Moves.pure (a : α) : Moves c (pure a) (pure a) := fun _ => rfl

theorem Moves.fail (err : Error) : Moves c (fail err : Emit α) (fail err) := fun _ => rfl

theorem Moves.lines (ls : Listing) : Moves c (lines ls) (lines (ls.moved c)) := fun _ => rfl

theorem Moves.fixed {ls : Listing} (h : ls.Fixed) : Moves c (Emit.lines ls) (Emit.lines ls) := by
  have hlines := Moves.lines (c := c) ls
  rwa [h c] at hlines

theorem Moves.bind {e e' : Emit α} {k k' : α → Emit β} (h : Moves c e e')
    (hk : ∀ a, Moves c (k a) (k' a)) : Moves c (e >>= k) (e' >>= k') := by
  intro n
  have hmoved := h n
  rcases he : e n with ⟨ls, m, err | a⟩
  · rw [he] at hmoved
    rw [bind_of_error he, bind_of_error hmoved]
    rfl
  · rw [he] at hmoved
    rw [bind_of_ok he, bind_of_ok hmoved, hk a m]
    simp only [Emission.moved, moved_append]

/-- A new label is passed on moved. -/
theorem Moves.fresh {k k' : Label → Emit β} (hk : ∀ l, Moves c (k l) (k' (l.moved c))) :
    Moves c (fresh >>= k) (fresh >>= k') := by
  intro n
  have hfresh : ∀ n, Emit.fresh n = ⟨[], n + 1, .ok (.temporary n)⟩ := fun _ => rfl
  have hlater := hk (.temporary n) (n + 1)
  rw [Nat.add_right_comm] at hlater
  rw [bind_of_ok (hfresh n), bind_of_ok (hfresh (n + c))]
  exact hlater

theorem Moves.each {emit : α → Emit Unit} (h : ∀ a, Moves c (emit a) (emit a)) :
    ∀ as, Moves c (each emit as) (each emit as)
  | [] => .pure ()
  | a :: as => (h a).bind fun _ => Moves.each h as

end Emit

open Emit

section
variable (c : Nat)

/-! ### Expressions -/

theorem Literal.moves_emit (l : Literal) : Moves c l.emit l.emit := by
  unfold Literal.emit
  split
  · exact .fail _
  · exact .lines _

theorem moves_emitJump (condition : Condition) (target : Label) :
    Moves c (emitJump condition target) (emitJump condition (target.moved c)) := .lines _

theorem moves_emitComparison (condition : Condition) :
    Moves c (emitComparison condition) (emitComparison condition) :=
  .fresh fun _ => .lines _

theorem BinaryOp.moves_emitEager (op : BinaryOp) : Moves c op.emitEager op.emitEager := by
  cases op with
  | lt | le | gt | ge | eq | ne => exact moves_emitComparison c _
  | and | or => exact .fail _
  | _ => exact .lines _

theorem UnaryOp.moves_emit (op : UnaryOp) : Moves c op.emit op.emit := by
  cases op with
  | minus | not => exact .lines _

theorem Expr.moves_emit (f : Frame) : ∀ e : Expr, Moves c (e.emit f) (e.emit f)
  | .literal value _ => value.moves_emit c
  | .name ident _ => by
    unfold Expr.emit
    split
    · exact .lines _
    · exact .fail _
  | .binary left op right _ => by
    unfold Expr.emit
    have hleft := left.moves_emit f
    have hright := right.moves_emit f
    split
    · refine .fresh fun done => hleft.bind fun _ => ?_
      exact (moves_emitJump c _ done).bind fun _ => hright.bind fun _ => .lines _
    · refine hleft.bind fun _ => (Moves.lines _).bind fun _ => hright.bind fun _ => ?_
      exact (Moves.lines _).bind fun _ => op.moves_emitEager c
  | .unary op operand _ => by
    unfold Expr.emit
    exact (operand.moves_emit f).bind fun _ => op.moves_emit c
  | .assign target value _ => by
    unfold Expr.emit
    split
    · exact (value.moves_emit f).bind fun _ => .lines _
    · exact .fail _
  | .thisRef _ | .call .. | .field .. | .element .. | .cast .. | .instanceOf .. | .new .. | .newArray .. =>
    .fail _

theorem Expr.moves_emitOption (f : Frame) (e : Option Expr) :
    Moves c (Expr.emitOption f e) (Expr.emitOption f e) := by
  cases e with
  | none => exact .pure ()
  | some e => exact e.moves_emit c f

/-! ### Statements -/

mutual

/-- The end of the routine is a label too, and is moved with the others. -/
theorem Stmt.moves_emit (exit : Label) (f : Frame) :
    ∀ s : Stmt, Moves c (s.emit exit f) (s.emit (exit.moved c) f)
  | .expr e _ => by
    unfold Stmt.emit
    exact (Moves.lines _).bind fun _ => (e.moves_emit c f).bind fun _ => .pure f
  | .localVar _ ident initializer _ => by
    unfold Stmt.emit
    refine (Moves.lines _).bind fun _ => (initializer.moves_emit c f).bind fun _ => ?_
    exact (Moves.lines _).bind fun _ => .pure _
  | .branch condition thenPart elsePart _ => by
    unfold Stmt.emit
    refine (Moves.lines _).bind fun _ => .fresh fun otherwise => ?_
    refine (condition.moves_emit c f).bind fun _ => (moves_emitJump c _ otherwise).bind fun _ => ?_
    exact (thenPart.moves_emit exit f).bind fun f => Stmt.moves_emitElse exit f otherwise elsePart
  | .whileLoop condition body _ => by
    unfold Stmt.emit
    refine (Moves.lines _).bind fun _ => .fresh fun start => .fresh fun done => ?_
    refine (Moves.lines _).bind fun _ => (condition.moves_emit c f).bind fun _ => ?_
    refine (moves_emitJump c _ done).bind fun _ => (body.moves_emit exit f).bind fun f => ?_
    exact (Moves.lines _).bind fun _ => (Moves.lines _).bind fun _ => .pure f
  | .forLoop init condition update body _ => by
    unfold Stmt.emit
    refine (Moves.lines _).bind fun _ => (Stmt.moves_emitOption exit f.enter init).bind fun f => ?_
    refine .fresh fun start => .fresh fun done => (Moves.lines _).bind fun _ => ?_
    have hrest := fun f' : Frame => (Expr.moves_emitOption c f' update).bind fun _ =>
      (Moves.lines [.instr (.jmp start)]).bind fun _ =>
        (Moves.lines [.label done]).bind fun _ => Moves.pure f'.exit
    have hbody := (body.moves_emit exit f).bind hrest
    cases condition with
    | none => exact (Moves.pure ()).bind fun _ => hbody
    | some e =>
      refine (e.moves_emit c f).bind fun _ => ?_
      exact (moves_emitJump c _ done).bind fun _ => hbody
  | .ret value _ => by
    unfold Stmt.emit
    refine (Moves.lines _).bind fun _ => (Expr.moves_emitOption c f value).bind fun _ => ?_
    exact (Moves.lines _).bind fun _ => .pure f
  | .block statements _ => by
    unfold Stmt.emit
    exact (Stmt.moves_emitAll exit f.enter statements).bind fun f => .pure f.exit
  | .empty => by
    unfold Stmt.emit
    exact .pure f

theorem Stmt.moves_emitElse (exit : Label) (f : Frame) (otherwise : Label) : ∀ s : Option Stmt,
    Moves c (Stmt.emitElse exit f otherwise s) (Stmt.emitElse (exit.moved c) f (otherwise.moved c) s)
  | none => by
    unfold Stmt.emitElse
    exact (Moves.lines _).bind fun _ => .pure f
  | some s => by
    unfold Stmt.emitElse
    refine .fresh fun done => (Moves.lines _).bind fun _ => (Moves.lines _).bind fun _ => ?_
    exact (s.moves_emit exit f).bind fun f => (Moves.lines _).bind fun _ => .pure f

theorem Stmt.moves_emitOption (exit : Label) (f : Frame) : ∀ s : Option Stmt,
    Moves c (Stmt.emitOption exit f s) (Stmt.emitOption (exit.moved c) f s)
  | none => by
    unfold Stmt.emitOption
    exact .pure f
  | some s => by
    unfold Stmt.emitOption
    exact s.moves_emit exit f

theorem Stmt.moves_emitAll (exit : Label) (f : Frame) : ∀ ss : List Stmt,
    Moves c (Stmt.emitAll exit f ss) (Stmt.emitAll (exit.moved c) f ss)
  | [] => by
    unfold Stmt.emitAll
    exact .pure f
  | s :: ss => by
    unfold Stmt.emitAll
    exact (s.moves_emit exit f).bind fun f => Stmt.moves_emitAll exit f ss

end

/-! ### Routines and units -/

theorem Routine.moves_emit (r : Routine) : Moves c r.emit r.emit := by
  refine .fresh fun exit => (Moves.fixed (r.fixed_entry _)).bind fun _ => ?_
  have hbody := Stmt.moves_emitAll c exit (Frame.begin r.parameters r.isInstance).enter r.body.statements
  refine (hbody.bind fun f => .pure f.exit).bind fun f => ?_
  split
  · exact .lines _
  · exact .fail _

theorem MethodDecl.moves_emit (owner : String) (m : MethodDecl) :
    Moves c (m.emit owner) (m.emit owner) := by
  unfold MethodDecl.emit
  split
  · unfold MethodDecl.emitBodyless
    simp only
    split
    · exact .fail _
    · split
      · exact .fail _
      · exact .lines _
  · exact Routine.moves_emit c _

theorem Member.moves_emit (owner : String) (member : Member) :
    Moves c (member.emit owner) (member.emit owner) := by
  cases member with
  | field f =>
    simp only [Member.emit, FieldDecl.emit]
    split
    · exact .fail _
    · exact .pure ()
  | method m => exact m.moves_emit c owner
  | ctor k => exact Routine.moves_emit c _

theorem Layout.moves_emitVtable (l : Layout) (name : String) :
    Moves c (l.emitVtable name) (l.emitVtable name) := by
  unfold Layout.emitVtable
  split
  · exact .fail _
  · rename_i cl _
    exact .fixed (cl.fixed_vtableListing name)

theorem CompilationUnit.moves_emit (l : Layout) (u : CompilationUnit) :
    Moves c (u.emit l) (u.emit l) := by
  rw [CompilationUnit.emit_eq]
  refine (Moves.lines _).bind fun _ => ?_
  cases u.decl with
  | ofClass decl =>
    exact (Moves.each (Member.moves_emit c _) decl.members).bind fun _ => l.moves_emitVtable c _
  | ofInterface _ => exact .lines _

/-- A unit has the same code from every label on, but for the labels. -/
theorem CompilationUnit.emit_eq_moved (l : Layout) (u : CompilationUnit) :
    u.emit l c = (u.emit l 0).moved c := by
  have hmoves := u.moves_emit c l 0
  rwa [Nat.zero_add] at hmoves

end

namespace Layout

variable (l : Layout)

/-- How many temporary labels a unit draws. -/
def labelCount (u : CompilationUnit) : Nat := (u.emit l 0).nextLabel

theorem labelAfter_eq : ∀ (us : List CompilationUnit) (n : Nat),
    l.labelAfter n us = (us.map l.labelCount).sum + n
  | [], n => (Nat.zero_add n).symm
  | u :: us, n => by
    show l.labelAfter (u.emit l n).nextLabel us = _
    rw [labelAfter_eq us, u.emit_eq_moved n l, List.map_cons, List.sum_cons]
    simp only [Emission.moved, labelCount]
    omega

/-- The file of a unit is its own code, moved behind the units before it. -/
theorem getElem?_files {us : List CompilationUnit} {k : Nat} {u : CompilationUnit} (hu : us[k]? = some u)
    (comments : Bool) : (l.files comments us)[k]? = some (Symbol.unitFile u.qualifiedName,
      ((u.emit l 0).lines.moved ((us.take k).map l.labelCount).sum).text comments) := by
  have hemission : (l.emissions 0 us)[k]? =
      some ((u.emit l 0).moved ((us.take k).map l.labelCount).sum) := by
    rw [getElem?_emissions hu, labelAfter_eq, Nat.add_zero, u.emit_eq_moved]
  have hfile : (l.unitFiles comments 0 us)[k]? = some (Symbol.unitFile u.qualifiedName,
      ((u.emit l 0).lines.moved ((us.take k).map l.labelCount).sum).text comments) := by
    rw [unitFiles, List.getElem?_zip_eq_some, List.getElem?_map, List.getElem?_map, hu, hemission]
    exact ⟨rfl, rfl⟩
  have hlt := (List.getElem?_eq_some_iff.mp hfile).1
  rw [files_eq, List.getElem?_append_left hlt, hfile]

end Layout

/-- The label that a unit starts at only numbers its labels: from another label
on, it fails alike or has the same lines, moved, and draws as many labels. So
the files of a run that succeeds have the code of each unit alone, moved by what
the units before it have drawn. -/
theorem generateAll_renumbers (l : Layout) :
    (∀ (u : CompilationUnit) (c : Nat), (u.emit l c).result = (u.emit l 0).result ∧
      (u.emit l c).lines = (u.emit l 0).lines.moved c ∧
      (u.emit l c).nextLabel = (u.emit l 0).nextLabel + c) ∧
    ∀ (o : Options) (us : List CompilationUnit) (d d' : Directory) (paths : List String),
      generateAll o l us d = (d', .ok paths) →
      d.Received (l.files o.comments us) d' ∧
      ∀ (k : Nat) (u : CompilationUnit), us[k]? = some u →
        u.render l o.comments = .ok ((u.emit l 0).lines.text o.comments) ∧
        (l.files o.comments us)[k]? = some (Symbol.unitFile u.qualifiedName,
          ((u.emit l 0).lines.moved ((us.take k).map l.labelCount).sum).text o.comments) := by
  refine ⟨fun u c => ?_, ?_⟩
  · rw [u.emit_eq_moved c l]
    exact ⟨rfl, rfl, rfl⟩
  · intro o us d d' paths hrun
    obtain ⟨hok, -, -, hfiles⟩ := generateAll_ok hrun
    refine ⟨hfiles, fun k u hu => ⟨?_, l.getElem?_files hu o.comments⟩⟩
    have hresult := hok _ (List.mem_of_getElem? (Layout.getElem?_emissions hu))
    rw [u.emit_eq_moved] at hresult
    have hzero : (u.emit l 0).result = .ok () := hresult
    rw [CompilationUnit.render, Emission.text, hzero]

/-- The last class of the program starts after the nine labels of the first. -/
theorem linkedUnits_renumbered : ∃ l d' paths u,
    generateAll ⟨"out", false, true⟩ l linkedUnits usedDirectory = (d', .ok paths) ∧
    linkedUnits[2]? = some u ∧ u.render l true = .ok ((u.emit l 0).lines.text true) ∧
    (l.files true linkedUnits)[2]? =
      some (Symbol.unitFile "p.A", ((u.emit l 0).lines.moved 9).text true) := by
  obtain ⟨l, d', paths, hlayout, hrun⟩ := linkedUnits_run
  obtain ⟨u, hu⟩ : ∃ u, linkedUnits[2]? = some u := ⟨_, rfl⟩
  obtain ⟨hrender, hfile⟩ :=
    ((generateAll_renumbers l).2 ⟨"out", false, true⟩ linkedUnits usedDirectory d' paths hrun).2 2 u hu
  have hlabels : ((linkedUnits.take 2).map l.labelCount).sum = 9 := by
    cases hlayout
    decide +kernel
  have hname : u.qualifiedName = "p.A" := by
    cases hu
    decide +kernel
  rw [hlabels, hname] at hfile
  exact ⟨l, d', paths, u, hrun, hu, hrender, hfile⟩

end ClassCompiler
