import ClassCompiler.Proofs.Codegen.Constructs
import ClassCompiler.Proofs.Codegen.Declarations
import ClassCompiler.Proofs.Codegen.StmtRuns
import ClassCompiler.Proofs.Dispatch.Overriding
import ClassCompiler.Proofs.Dispatch.Renumbering

/-!
# Programs that have code

An emission is judged by a list of constructs if it fails with the error of the
first of them that has no code, and otherwise has its result. Pieces of code that
follow each other are judged by one list after the other, so the code of a unit
is judged by all its constructs. Nothing else can fail: the pass through the
declarations comes to no node inside a body, the frame of a body ends as large
as it was made, and a class of a checked program has a layout.

Key definitions: `Emit.Judged`, `Stmt.leaves`, `CompilationUnit.isScoped`.

Key theorems: `Expr.judged`, `Stmt.judged`, `Routine.judged`, `CompilationUnit.judged`,
`render_ok_iff_supported`.
-/

namespace ClassCompiler

/-! ### Judged emissions -/

namespace Emit

variable {α β : Type} {a : α} {b : β} {cs cs' : List Construct} {c : Construct}

/-- What comes of constructs: the first error, or else the result. -/
def verdict (cs : List Construct) (a : α) : Except Error α :=
  match cs.findSome? Construct.error? with
  | some err => .error err
  | none => .ok a

/-- The emission fails as the first of the constructs does that has no code, and
otherwise has a result. -/
def Judged (e : Emit α) (cs : List Construct) (a : α) : Prop :=
  ∀ n, (e n).result = verdict cs a

namespace Judged

theorem pure : (Pure.pure a : Emit α).Judged [] a := fun _ => rfl

theorem lines (ls : Listing) : (Emit.lines ls).Judged [] () := fun _ => rfl

theorem fail {err : Error} (h : c.error? = some err) : (Emit.fail err).Judged (c :: cs) a := by
  intro n
  rw [verdict, List.findSome?_cons, h]
  rfl

/-- A construct that has code may be left out. -/
theorem pass {e : Emit α} (hc : c.error? = none) (h : e.Judged cs a) : e.Judged (c :: cs) a := by
  intro n
  rw [h n, verdict, verdict, List.findSome?_cons, hc]

theorem bind {e : Emit α} {k : α → Emit β} (h : e.Judged cs a) (hk : (k a).Judged cs' b) :
    (e >>= k).Judged (cs ++ cs') b := by
  intro n
  have hn := h n
  rcases he : e n with ⟨ls, n', r⟩
  rw [he] at hn
  unfold verdict at hn ⊢
  rw [List.findSome?_append]
  rcases hf : cs.findSome? Construct.error? with _ | err
  · rw [hf] at hn
    obtain rfl : r = .ok a := hn
    rw [Emit.bind_of_ok he]
    exact hk n'
  · rw [hf] at hn
    obtain rfl : r = .error err := hn
    rw [Emit.bind_of_error he]
    rfl

/-- What comes after lines is judged by its own constructs. -/
theorem after {e : Emit α} {k : α → Emit β} (h : e.Judged [] a) (hk : (k a).Judged cs b) :
    (e >>= k).Judged cs b :=
  h.bind hk

/-- Lines at the end change nothing. -/
theorem before {e : Emit α} {k : α → Emit β} (h : e.Judged cs a) (hk : (k a).Judged [] b) :
    (e >>= k).Judged cs b := by
  have hboth := h.bind hk
  rwa [List.append_nil] at hboth

theorem fresh {k : Label → Emit β} (hk : ∀ l, (k l).Judged cs b) : (Emit.fresh >>= k).Judged cs b :=
  fun n => hk (.temporary n) (n + 1)

end Judged
end Emit

/-! ### Frames -/

namespace Frame

/-- The names that are bound in a frame, innermost first. -/
def names (f : Frame) : List String := f.bindings.map Prod.fst

theorem isSome_lookup? {f : Frame} {name : String} :
    (f.lookup? name).isSome = true ↔ name ∈ f.names := by
  rw [lookup?_eq, List.lookup_isSome_iff, names, List.mem_map]
  simp only [beq_iff_eq]
  exact exists_congr fun b => and_congr_right fun _ => eq_comm

theorem lookup?_eq_none {f : Frame} {name : String} (h : name ∉ f.names) : f.lookup? name = none := by
  rw [← Option.not_isSome_iff_eq_none, isSome_lookup?]
  exact h

theorem names_declare (f : Frame) (ident : String) :
    (f.declare ident).names = ident :: f.names := by
  rw [names, bindings_declare, List.map_cons, names]

/-- The frame with some more words in use, and the same names. -/
def skip (f : Frame) (words : Nat) : Frame := { f with nextLocal := f.nextLocal + words }

theorem names_skip (f : Frame) (words : Nat) : (f.skip words).names = f.names := rfl

theorem skip_skip (f : Frame) (m n : Nat) : (f.skip m).skip n = f.skip (m + n) := by
  simp only [skip, Nat.add_assoc]

theorem exit_skip (f : Frame) (words : Nat) : (f.skip words).exit = f.exit.skip words := rfl

theorem exit_declare (f : Frame) (ident : String) : (f.declare ident).exit = f.exit.skip 1 := by
  rcases f with ⟨next, arguments, _ | ⟨scope, outer⟩⟩
  · rfl
  · rfl

end Frame

namespace Stmt

/-- The frame that a statement leaves. -/
def leaves (f : Frame) (s : Stmt) : Frame :=
  match s with
  | .localVar _ ident _ _ => f.declare ident
  | s => f.skip s.localCount

def leavesOption (f : Frame) (o : Option Stmt) : Frame := o.elim f (leaves f)

def leavesAll (f : Frame) (ss : List Stmt) : Frame := ss.foldl leaves f

theorem names_leaves (f : Frame) (s : Stmt) : (s.leaves f).names = s.binds ++ f.names := by
  cases s with
  | localVar => exact Frame.names_declare f _
  | _ => rfl

theorem names_leavesOption (f : Frame) (o : Option Stmt) :
    (leavesOption f o).names = bindsOption o ++ f.names := by
  cases o with
  | none => rfl
  | some s => exact names_leaves f s

theorem leaves_of_not_declaration {s : Stmt} (h : s.isDeclaration = false) (f : Frame) :
    s.leaves f = f.skip s.localCount := by
  cases s with
  | localVar => cases h
  | _ => rfl

theorem exit_leaves (f : Frame) (s : Stmt) : (s.leaves f).exit = f.exit.skip s.localCount := by
  cases s with
  | localVar => exact f.exit_declare _
  | _ => rfl

theorem exit_leavesOption (f : Frame) (o : Option Stmt) :
    (leavesOption f o).exit = f.exit.skip (localCountOption o) := by
  cases o with
  | none => rfl
  | some s => exact exit_leaves f s

theorem exit_leavesAll (ss : List Stmt) : ∀ f : Frame,
    (leavesAll f ss).exit = f.exit.skip (localCountAll ss) := by
  induction ss with
  | nil => exact fun f => rfl
  | cons s ss ih =>
    intro f
    calc (leavesAll (s.leaves f) ss).exit
        = (s.leaves f).exit.skip (localCountAll ss) := ih (s.leaves f)
      _ = (f.exit.skip s.localCount).skip (localCountAll ss) := by rw [exit_leaves]
      _ = f.exit.skip (s.localCount + localCountAll ss) := Frame.skip_skip ..

end Stmt

/-! ### Expressions -/

open Emit (Judged)

theorem Literal.judged (bound : List String) (value : Literal) (span : Span) :
    value.emit.Judged [.expr bound (.literal value span)] () := by
  cases value with
  | integer n =>
    rw [Literal.emit, Literal.word]
    by_cases h : n.toInt < -0x80000000 ∨ 0x80000000 < n.toInt
    · rw [if_pos h]
      exact .fail (if_neg (by omega))
    · rw [if_neg h]
      exact .pass (if_pos (by omega)) (.lines _)
  | string => exact .fail rfl
  | _ => exact .pass rfl (.lines _)

theorem BinaryOp.judged_emitEager {op : BinaryOp} (h : op.skipsOn? = none) :
    op.emitEager.Judged [] () := by
  cases op with
  | and => cases h
  | or => cases h
  | lt | le | gt | ge | eq | ne => exact .fresh fun done => .lines _
  | _ => exact .lines _

theorem UnaryOp.judged_emit (op : UnaryOp) : op.emit.Judged [] () := by
  cases op with
  | minus => exact .lines _
  | not => exact .lines _

theorem Expr.judged (f : Frame) : ∀ e : Expr, (e.emit f).Judged (e.constructs f.names) ()
  | .literal value span => value.judged f.names span
  | .name ident span => by
    unfold Expr.emit
    by_cases h : ident ∈ f.names
    · obtain ⟨slot, hslot⟩ := Option.isSome_iff_exists.mp (Frame.isSome_lookup?.mpr h)
      rw [hslot]
      exact .pass (if_pos h) (.lines _)
    · rw [Frame.lookup?_eq_none h]
      exact .fail (if_neg h)
  | .binary left op right span => by
    have hparts : (Expr.binary left op right span).constructs f.names =
        .expr f.names (.binary left op right span) ::
          (left.constructs f.names ++ right.constructs f.names) := by
      simp [Expr.constructs, Expr.parts]
    rw [hparts]
    -- an operator has code, so its operands decide, the left one first
    apply Judged.pass rfl
    unfold Expr.emit
    rcases hop : op.skipsOn? with _ | condition
    · exact (left.judged f).bind (.after (.lines _)
        ((right.judged f).before (.after (.lines _) (BinaryOp.judged_emitEager hop))))
    · exact .fresh fun done =>
        (left.judged f).bind (.after (.lines _) ((right.judged f).before (.lines _)))
  | .unary op operand span => by
    apply Judged.pass rfl
    exact (operand.judged f).before op.judged_emit
  | .assign target value span => by
    unfold Expr.emit
    cases target with
    | name ident =>
      rw [Expr.target?]
      by_cases h : ident ∈ f.names
      · obtain ⟨slot, hslot⟩ := Option.isSome_iff_exists.mp (Frame.isSome_lookup?.mpr h)
        rw [hslot]
        exact .pass (if_pos h) (.pass (if_pos h) ((value.judged f).before (.lines _)))
      · rw [Frame.lookup?_eq_none h]
        exact .fail (if_neg h)
    | _ => exact .fail rfl
  | .thisRef _ | .call .. | .field .. | .element .. | .cast .. | .instanceOf .. | .new ..
  | .newArray .. => .fail rfl

theorem Expr.judgedOption (f : Frame) (o : Option Expr) :
    (Expr.emitOption f o).Judged (Expr.constructsOption f.names o) () := by
  cases o with
  | none => exact .pure
  | some e => exact e.judged f

/-! ### Statements -/

mutual

/-- The code of a statement is judged by its constructs, and the frame that it
leaves depends on the statement alone: the scopes are those that it found, but
for a variable that it declares itself, and each variable in it has taken a word. -/
theorem Stmt.judged (exit : Label) : ∀ (s : Stmt) (f : Frame), s.isScoped = true →
    (s.emit exit f).Judged (s.constructs f.names) (s.leaves f)
  | .expr e span, f, _ => by
    unfold Stmt.emit
    exact .after (.lines _) ((e.judged f).before .pure)
  | .localVar type ident initializer span, f, _ => by
    unfold Stmt.emit
    exact .after (.lines _) ((initializer.judged f).before (.after (.lines _) .pure))
  | .branch condition thenPart elsePart span, f, hs => by
    simp only [Stmt.isScoped, Bool.and_eq_true, Bool.not_eq_true'] at hs
    obtain ⟨⟨hdecl, hthen⟩, helse⟩ := hs
    have hfirst := thenPart.judged exit f hthen
    rw [Stmt.leaves_of_not_declaration hdecl] at hfirst
    have hrest (otherwise : Label) :=
      Stmt.judgedElse exit elsePart (f.skip thenPart.localCount) otherwise helse
    rw [Frame.names_skip, Frame.skip_skip] at hrest
    unfold Stmt.emit
    exact .after (.lines _) (.fresh fun otherwise =>
      (condition.judged f).bind (.after (.lines _) (hfirst.bind (hrest otherwise))))
  | .whileLoop condition body span, f, hs => by
    simp only [Stmt.isScoped, Bool.and_eq_true, Bool.not_eq_true'] at hs
    have hbody := body.judged exit f hs.2
    rw [Stmt.leaves_of_not_declaration hs.1] at hbody
    unfold Stmt.emit
    exact .after (.lines _) (.fresh fun start => .fresh fun done => .after (.lines _)
      ((condition.judged f).bind (.after (.lines _)
        (hbody.before (.after (.lines _) (.after (.lines _) .pure))))))
  | .forLoop init condition update body span, f, hs => by
    simp only [Stmt.isScoped, Bool.and_eq_true, Bool.not_eq_true'] at hs
    obtain ⟨hinit, hdecl, hscoped⟩ := hs
    have hfirst := Stmt.judgedOption exit init f.enter hinit
    have hnames : (Stmt.leavesOption f.enter init).names = Stmt.bindsOption init ++ f.names :=
      Stmt.names_leavesOption f.enter init
    have hexit := Stmt.exit_leavesOption f.enter init
    generalize Stmt.leavesOption f.enter init = f₁ at hfirst hnames hexit
    have hbody := body.judged exit f₁ hscoped
    rw [Stmt.leaves_of_not_declaration hdecl] at hbody
    -- the scope of the loop holds its variable and is left at the end
    have hframe : (f₁.skip body.localCount).exit =
        (Stmt.forLoop init condition update body span).leaves f := by
      rw [Frame.exit_skip, hexit, Frame.exit_enter, Frame.skip_skip]
      rfl
    have hrest (start done : Label) : Judged (do
        let f ← body.emit exit f₁
        Expr.emitOption f update
        Emit.instr (.jmp start)
        Emit.label done
        return f.exit)
        (body.constructs f₁.names ++ Expr.constructsOption f₁.names update)
        ((Stmt.forLoop init condition update body span).leaves f) := by
      rw [← hframe]
      exact hbody.bind ((Expr.judgedOption (f₁.skip body.localCount) update).before
        (.after (.lines _) (.after (.lines _) .pure)))
    unfold Stmt.emit Stmt.constructs
    rw [← hnames]
    refine .after (.lines _) (hfirst.bind (.fresh fun start => .fresh fun done => .after (.lines _) ?_))
    cases condition with
    | none => exact hrest start done
    | some c => exact (c.judged f₁).bind (.after (.lines _) (hrest start done))
  | .ret value span, f, _ => by
    unfold Stmt.emit
    exact .after (.lines _) ((Expr.judgedOption f value).before (.after (.lines _) .pure))
  | .block statements span, f, hs => by
    have hall := Stmt.judgedAll exit statements f.enter hs
    have hexit : (Stmt.leavesAll f.enter statements).exit = (Stmt.block statements span).leaves f :=
      Stmt.exit_leavesAll statements f.enter
    unfold Stmt.emit
    rw [← hexit]
    exact hall.before .pure
  | .empty, f, _ => by
    unfold Stmt.emit
    exact .pure

theorem Stmt.judgedElse (exit : Label) : ∀ (o : Option Stmt) (f : Frame) (otherwise : Label),
    Stmt.isScopedPart o = true →
    (Stmt.emitElse exit f otherwise o).Judged (Stmt.constructsOption f.names o)
      (f.skip (Stmt.localCountOption o))
  | none, f, otherwise, _ => by
    unfold Stmt.emitElse
    exact .after (.lines _) .pure
  | some s, f, otherwise, hs => by
    simp only [Stmt.isScopedPart, Bool.and_eq_true, Bool.not_eq_true'] at hs
    have hpart := s.judged exit f hs.2
    rw [Stmt.leaves_of_not_declaration hs.1] at hpart
    unfold Stmt.emitElse
    exact .fresh fun done => .after (.lines _) (.after (.lines _)
      (hpart.before (.after (.lines _) .pure)))

theorem Stmt.judgedOption (exit : Label) : ∀ (o : Option Stmt) (f : Frame),
    Stmt.isScopedOption o = true →
    (Stmt.emitOption exit f o).Judged (Stmt.constructsOption f.names o) (Stmt.leavesOption f o)
  | none, f, _ => by
    unfold Stmt.emitOption
    exact .pure
  | some s, f, hs => by
    unfold Stmt.emitOption
    exact s.judged exit f hs

theorem Stmt.judgedAll (exit : Label) : ∀ (ss : List Stmt) (f : Frame),
    Stmt.isScopedAll ss = true →
    (Stmt.emitAll exit f ss).Judged (Stmt.constructsAll f.names ss) (Stmt.leavesAll f ss)
  | [], f, _ => by
    unfold Stmt.emitAll
    exact .pure
  | s :: ss, f, hs => by
    obtain ⟨hfirst, hrest⟩ := Bool.and_eq_true_iff.mp hs
    have hafter := Stmt.judgedAll exit ss (s.leaves f) hrest
    rw [Stmt.names_leaves] at hafter
    unfold Stmt.emitAll
    exact (s.judged exit f hfirst).bind hafter

end

/-! ### Members and units -/

theorem Block.judged (exit : Label) (f : Frame) (b : Block)
    (hs : Stmt.isScopedAll b.statements = true) :
    (b.emit exit f).Judged (Stmt.constructsAll f.names b.statements) (f.skip b.localCount) := by
  have hblock := (Stmt.block b.statements b.span).judged exit f hs
  unfold Stmt.emit at hblock
  exact hblock

theorem Frame.names_begin (parameters : List String) (isInstance : Bool) :
    (Frame.begin parameters isInstance).names = parameters.reverse := by
  simp only [Frame.names, Frame.bindings, Frame.begin, List.flatten_nil, List.map_nil,
    List.nil_append, List.map_map]
  have hfst : (Prod.fst ∘ fun b : String × Nat => (b.1, Slot.argument b.2)) = Prod.fst := rfl
  rw [hfst, List.map_reverse, List.zipIdx_map_fst]

/-- The frame of a body ends as large as it was made. -/
theorem Routine.judged (r : Routine) (hs : Stmt.isScopedAll r.body.statements = true) :
    r.emit.Judged (Stmt.constructsAll r.parameters.reverse r.body.statements) () := by
  unfold Routine.emit
  refine .fresh fun exit => .after (.lines _) ?_
  have hbody := r.body.judged exit (Frame.begin r.parameters r.isInstance) hs
  rw [Frame.names_begin] at hbody
  refine hbody.before ?_
  have hsize : ((Frame.begin r.parameters r.isInstance).skip r.body.localCount).nextLocal =
      r.body.localCount := Nat.zero_add _
  rw [if_pos hsize]
  exact .lines _

theorem MethodDecl.judged_emitBodyless (owner : String) (m : MethodDecl) :
    (m.emitBodyless owner).Judged [.bodyless owner m] () := by
  unfold MethodDecl.emitBodyless
  simp only [Method.has_ofDecl]
  by_cases hn : (m.has .isNative && !m.has .isStatic) = true
  · rw [if_pos hn]
    exact .fail (if_pos hn)
  rw [if_neg hn]
  by_cases hb : (!m.has .isAbstract && !m.has .isNative) = true
  · rw [if_pos hb]
    exact .fail ((if_neg hn).trans (if_pos hb))
  · rw [if_neg hb]
    exact .pass ((if_neg hn).trans (if_neg hb)) (.lines _)

/-- The bodies of a member declare local variables in blocks and loops only. -/
def Member.isScoped : Member → Bool
  | .field _ => true
  | .method m => m.body.all fun b => Stmt.isScopedAll b.statements
  | .ctor k => Stmt.isScopedAll k.body.statements

def CompilationUnit.isScoped (u : CompilationUnit) : Bool :=
  match u.decl with
  | .ofClass c => c.members.all (·.isScoped)
  | .ofInterface _ => true

theorem Member.judged (owner : String) (member : Member) (hs : member.isScoped = true) :
    (member.emit owner).Judged (member.constructs owner) () := by
  cases member with
  | field f =>
    rw [Member.emit, FieldDecl.emit]
    rcases hi : f.initializer with _ | e
    · exact .pass (by simp [Construct.error?, hi]) .pure
    · exact .fail (by simp [Construct.error?, hi])
  | method m =>
    rw [Member.emit, MethodDecl.emit, Member.constructs]
    rw [Member.isScoped] at hs
    rcases hb : m.body with _ | body
    · exact m.judged_emitBodyless owner
    · rw [hb] at hs
      exact (Routine.ofMethod owner m body).judged hs
  | ctor k => exact (Routine.ofConstructor owner k).judged hs

theorem Member.judgedAll (owner : String) : ∀ members : List Member,
    members.all (·.isScoped) = true →
    (Emit.each (Member.emit owner) members).Judged (members.flatMap (Member.constructs owner)) ()
  | [], _ => .pure
  | m :: ms, hs => by
    rw [List.all_cons, Bool.and_eq_true] at hs
    rw [List.flatMap_cons, Emit.each]
    exact (m.judged owner hs.1).bind (Member.judgedAll owner ms hs.2)

/-- A unit whose class has a layout has code exactly if its constructs have. -/
theorem CompilationUnit.judged {l : Layout} {u : CompilationUnit} (hs : u.isScoped = true)
    (hl : ∀ c, u.decl = .ofClass c → (l.class? u.qualifiedName).isSome = true) :
    (u.emit l).Judged u.constructs () := by
  rw [CompilationUnit.emit_eq]
  unfold CompilationUnit.constructs
  unfold CompilationUnit.isScoped at hs
  refine .after (.lines _) ?_
  cases hd : u.decl with
  | ofClass c =>
    rw [hd] at hs
    obtain ⟨c', hc'⟩ := Option.isSome_iff_exists.mp (hl c hd)
    have htable : (l.emitVtable u.qualifiedName).Judged [] () := by
      rw [Layout.emitVtable, hc']
      exact .lines _
    exact (Member.judgedAll u.qualifiedName c.members hs).before htable
  | ofInterface i => exact .lines _

theorem CompilationUnit.render_eq {l : Layout} {u : CompilationUnit}
    (h : (u.emit l).Judged u.constructs ()) (comments : Bool) :
    u.render l comments = Emit.verdict u.constructs ((u.emit l 0).lines.text comments) := by
  rw [CompilationUnit.render, Emission.text, h 0]
  unfold Emit.verdict
  rcases u.constructs.findSome? Construct.error? with _ | err
  · rfl
  · rfl

/-! ### The supported programs -/

/-- A unit of a checked program has code exactly if all that it needs code for is
supported. Otherwise the error is that of the first construct that is not, and
the compiler is at fault only if that is a method that lacks its body or a number
that does not fit. -/
theorem render_ok_iff_supported (us : List CompilationUnit) (allowUnresolved : Bool) (g : Graph)
    (h : check us allowUnresolved = .ok g) :
    ∃ l, Layout.ofGraph g us = .ok l ∧ ∀ u ∈ us, u.isScoped = true → ∀ comments : Bool,
      ((∃ text, u.render l comments = .ok text) ↔ ∀ c ∈ u.constructs, c.IsSupported) ∧
      ∀ e, u.render l comments = .error e ↔
        ∃ before c after, u.constructs = before ++ c :: after ∧ (∀ b ∈ before, b.IsSupported) ∧
          ¬ c.IsSupported ∧ c.error? = some e ∧
          ((c.IsDefect ∧
              ((∃ m, e = .internal (.missingBody m)) ∨ ∃ n, e = .internal (.literalRange n))) ∨
            (¬ c.IsDefect ∧ ∃ feature, e = .unsupported feature)) := by
  obtain ⟨hr, hl⟩ := represents_of_check h
  obtain ⟨l, ids, hok, hb⟩ := Layout.exists_ofGraph hr hl
  refine ⟨l, hok, fun u hu hs comments => ?_⟩
  have hclass : ∀ c, u.decl = .ofClass c → (l.class? u.qualifiedName).isSome = true := by
    intro c hc
    rw [hb.isSome_class?_iff hr]
    exact ⟨u, hu, by rw [hc]; rfl, rfl⟩
  rw [CompilationUnit.render_eq (CompilationUnit.judged hs hclass) comments]
  constructor
  · rw [← Construct.findSome?_error?_eq_none]
    unfold Emit.verdict
    rcases u.constructs.findSome? Construct.error? with _ | err
    · simp
    · simp
  · intro e
    have hfirst : Emit.verdict u.constructs ((u.emit l 0).lines.text comments) = .error e ↔
        u.constructs.findSome? Construct.error? = some e := by
      unfold Emit.verdict
      rcases u.constructs.findSome? Construct.error? with _ | err
      · simp
      · simp
    rw [hfirst, Construct.findSome?_error?_eq_some]
    constructor
    · rintro ⟨before, c, after, hsplit, hbefore, herror⟩
      refine ⟨before, c, after, hsplit, hbefore, fun hc => ?_, herror, Construct.error?_cases herror⟩
      cases herror.symm.trans (Construct.error?_eq_none.mpr hc)
    · rintro ⟨before, c, after, hsplit, hbefore, -, herror, -⟩
      exact ⟨before, c, after, hsplit, hbefore, herror⟩

/-- A class with one method, a loop that counts up to its parameter. -/
def loopUnit (body update : Expr) : CompilationUnit :=
  .of (.ofClass ⟨[], "A", none, [], [.method ⟨[.isStatic], none, "m", [.of (.named "int") "n"],
    some ⟨[.forLoop (some (.localVar (.named "int") "i" (.ofInt 0) .zero))
      (some (.ofBinary (.ofName "i") .lt (.ofName "n"))) (some update) (.expr body .zero) .zero],
      .zero⟩, .zero⟩], .zero⟩)

def boundLoop : CompilationUnit := loopUnit (.ofName "n") (.ofName "i")

def unboundLoop : CompilationUnit := loopUnit (.ofName "x") (.thisRef .zero)

/-- The body of a loop comes before its update, so of two errors the one in the
body is reported. -/
theorem loops_render :
    (∃ g l text, check [boundLoop] false = .ok g ∧ Layout.ofGraph g [boundLoop] = .ok l ∧
      boundLoop.render l true = .ok text) ∧
    ∃ g l, check [unboundLoop] false = .ok g ∧ Layout.ofGraph g [unboundLoop] = .ok l ∧
      unboundLoop.render l true = .error (.unsupported (.fieldAccess "x")) := by
  constructor
  · obtain ⟨l, hl, hrender⟩ :=
      render_ok_iff_supported [boundLoop] false (Graph.empty.declareAll [boundLoop]).1 rfl
    have hsupported : ∀ c ∈ boundLoop.constructs, c.IsSupported := by decide
    obtain ⟨text, htext⟩ := (hrender boundLoop List.mem_cons_self rfl true).1.mpr hsupported
    exact ⟨_, l, text, rfl, hl, htext⟩
  · obtain ⟨l, hl, hrender⟩ :=
      render_ok_iff_supported [unboundLoop] false (Graph.empty.declareAll [unboundLoop]).1 rfl
    have hbefore : ∀ c ∈ unboundLoop.constructs.take 4, c.IsSupported := by decide
    have hfirst : ¬ Construct.IsSupported (.expr ["i", "n"] (.ofName "x")) := by decide
    have herror := ((hrender unboundLoop List.mem_cons_self rfl true).2 _).mpr
      ⟨unboundLoop.constructs.take 4, .expr ["i", "n"] (.ofName "x"),
        [.expr ["i", "n"] (.thisRef .zero)], rfl, hbefore, hfirst, rfl, .inr ⟨id, _, rfl⟩⟩
    exact ⟨_, l, rfl, hl, herror⟩

end ClassCompiler
