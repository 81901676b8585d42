import ClassCompiler.Proofs.Source.Forms

/-!
# The readers of source values take every form

For each kind of source value, its reader gives back the value from every JSON
form of its shape (`Reads`), from plain values and spans up to a whole
compilation unit. The proofs follow the readers: a form of a record holds all
fields of the record, and each field is read by a reader treated before.

Expressions and statements nest, and their readers count down a bound. The
induction is on that bound and not on the tree: what is read below a form
nests less deep than the form.

Key theorems: `Expr.readsBelow`, `Stmt.readsBelow`, `CompilationUnit.reads`.
-/

namespace ClassCompiler

/-! ### Plain values -/

namespace Json

theorem reads_bool : Reads Json.bool? Shape.flag := by
  intro b j written
  cases written
  rfl

theorem reads_str : Reads Json.str? Shape.text := by
  intro s j written
  cases written
  rfl

theorem reads_char : Reads Json.char? Shape.char := by
  intro c j written
  cases written
  simp [Json.char?]

theorem reads_nat : Reads Json.nat? fun n => Shape.number n := by
  intro n j written
  cases written
  simp [Json.nat?]

theorem reads_int64 : Reads Json.int64? fun n => Shape.number n.toInt := by
  intro n j written
  cases written
  have hrange : Int64.minValue.toInt ≤ n.toInt ∧ n.toInt ≤ Int64.maxValue.toInt :=
    ⟨n.minValue_le_toInt, n.toInt_le⟩
  rw [Json.int64?, if_pos hrange, Int64.ofInt_toInt]

/-- A variant that carries nothing is read by its name, in both its forms. -/
theorem tag?_of_writtenAs {name : String} {j : Json} (h : (Shape.tag name).WrittenAs j) :
    j.tag? = some name := by
  cases h <;> rfl

end Json

theorem BinaryOp.reads : Reads BinaryOp.ofJson? fun op => Shape.tag op.name := by
  intro op j written
  simp [BinaryOp.ofJson?, Json.tag?_of_writtenAs written]

theorem UnaryOp.reads : Reads UnaryOp.ofJson? fun op => Shape.tag op.name := by
  intro op j written
  simp [UnaryOp.ofJson?, Json.tag?_of_writtenAs written]

theorem Modifier.reads : Reads Modifier.ofJson? Modifier.shape := by
  intro m j written
  simp [Modifier.ofJson?, Json.tag?_of_writtenAs written]

theorem Literal.reads : Reads Literal.ofJson? Literal.shape := by
  intro l j written
  cases l with
  | integer n =>
    cases written with
    | variant _ h => simp [Literal.ofJson?, Json.variant?, Json.reads_int64 n _ h]
  | boolean b =>
    cases written with
    | variant _ h => simp [Literal.ofJson?, Json.variant?, Json.reads_bool b _ h]
  | char c =>
    cases written with
    | variant _ h => simp [Literal.ofJson?, Json.variant?, Json.reads_char c _ h]
  | string s =>
    cases written with
    | variant _ h => simp [Literal.ofJson?, Json.variant?, Json.reads_str s _ h]
  | null => cases written <;> simp [Literal.ofJson?, Json.variant?]

/-! ### Places and types

A field without a default is there, so its shape must be seen to be none; for
records it is the name of the record that tells. -/

theorem Location.not_isDefault (l : Location) : ¬ l.shape.IsDefault := by
  simp [Location.shape, Shape.IsDefault, Span.shape]

theorem TypeRef.not_isDefault (t : TypeRef) : ¬ t.shape.IsDefault := by
  simp [TypeRef.shape, Shape.IsDefault, Span.shape]

theorem Literal.not_isDefault (l : Literal) : ¬ l.shape.IsDefault := by
  cases l <;> exact id

@[simp] theorem Span.isDefault_iff {s : Span} : s.shape.IsDefault ↔ s = .zero := by
  obtain ⟨⟨_, _, _⟩, ⟨_, _, _⟩⟩ := s
  simp [Span.shape, Shape.IsDefault, Location.shape, Span.zero, Location.zero]

namespace Record

variable {r : Record} {n : Nat} {field : String}

theorem Holds.str_eq {s : String} (h : r.Holds n (field, .text s)) :
    r.get? field Json.str? = some s :=
  h.get?_eq (Json.reads_str.below n) id

theorem Holds.nat_eq {k : Nat} (h : r.Holds n (field, .number k)) :
    r.get? field Json.nat? = some k :=
  Holds.get?_eq (Json.reads_nat.below n) h id

theorem Holds.flag_eq {b : Bool} (h : r.Holds n (field, .flag b)) :
    r.getD? field false Json.bool? = some b :=
  h.getD?_eq (Json.reads_bool.below n) id

end Record

theorem Location.reads : Reads Location.ofJson? Location.shape := by
  intro l j written
  obtain ⟨r, hr, line, column, offset⟩ :=
    written.exists_record ["line", "column", "offset"] rfl (by decide)
  simp [Location.ofJson?, hr, line.nat_eq, column.nat_eq, offset.nat_eq]

theorem Span.reads : Reads Span.ofJson? Span.shape := by
  intro s j written
  obtain ⟨r, hr, start, stop⟩ := written.exists_record ["start", "end"] rfl (by decide)
  have hstart := start.get?_eq (Location.reads.below _) s.start.not_isDefault
  have hstop := stop.get?_eq (Location.reads.below _) s.stop.not_isDefault
  simp [Span.ofJson?, hr, hstart, hstop]

namespace Record

variable {r : Record} {n : Nat} {field : String}

theorem Holds.span_eq {s : Span} (h : r.Holds n ("span", s.shape)) : r.span? = some s :=
  h.getD?_eq (Span.reads.below n) Span.isDefault_iff.mp

end Record

theorem TypeRef.reads : Reads TypeRef.ofJson? TypeRef.shape := by
  intro t j written
  obtain ⟨r, hr, name, isArray, span⟩ :=
    written.exists_record ["name", "is_array", "span"] rfl (by decide)
  simp [TypeRef.ofJson?, hr, name.str_eq, isArray.flag_eq, span.span_eq]

theorem Record.Holds.type_eq {r : Record} {n : Nat} {field : String} {t : TypeRef}
    (h : r.Holds n (field, t.shape)) : r.get? field TypeRef.ofJson? = some t :=
  h.get?_eq (TypeRef.reads.below n) t.not_isDefault

/-! ### Expressions -/

namespace Expr

theorem shapes_eq : ∀ es : List Expr, Expr.shapes es = es.map Expr.shape
  | [] => rfl
  | e :: es => by rw [Expr.shapes, shapes_eq es, List.map_cons]

theorem shapeOption_eq : ∀ o : Option Expr, Expr.shapeOption o = .ofOption Expr.shape o
  | none => rfl
  | some _ => rfl

theorem exists_shape_eq_variant (e : Expr) : ∃ name payload, e.shape = .variant name payload := by
  cases e <;> exact ⟨_, _, rfl⟩

theorem not_isDefault (e : Expr) : ¬ e.shape.IsDefault := by
  obtain ⟨name, payload, h⟩ := e.exists_shape_eq_variant
  rw [h]
  exact id

end Expr

namespace Record

variable {r : Record} {n : Nat} {field : String} {read : Json → Option Expr}

theorem Holds.expr_eq (hread : ReadsBelow n read Expr.shape) {e : Expr}
    (h : r.Holds n (field, e.shape)) : r.get? field read = some e :=
  h.get?_eq hread e.not_isDefault

theorem Holds.exprs_eq (hread : ReadsBelow n read Expr.shape) {es : List Expr}
    (h : r.Holds n (field, .list (Expr.shapes es))) :
    r.getD? field [] (Json.list? read) = some es :=
  Holds.list_eq hread (by rwa [Expr.shapes_eq] at h)

theorem Holds.exprOption_eq (hread : ReadsBelow n read Expr.shape) (hnull : read .null = none)
    {o : Option Expr} (h : r.Holds n (field, Expr.shapeOption o)) :
    r.getD? field none (Json.option? read) = some o :=
  Holds.option_eq hread hnull (by rwa [Expr.shapeOption_eq] at h)

end Record

namespace Expr

theorem ofJsonWithin?_null (bound : Nat) : Expr.ofJsonWithin? bound .null = none := by
  cases bound <;> rfl

/-- The reader of expressions takes every form of an expression that nests at
most as deep as its bound. -/
theorem readsBelow : ∀ bound, ReadsBelow (bound + 1) (Expr.ofJsonWithin? bound) Expr.shape
  | 0 => by
    -- A form of an expression is an object, so it nests deeper than the bound.
    intro e j written hn
    obtain ⟨name, payload, hshape⟩ := e.exists_shape_eq_variant
    rw [hshape] at written
    cases written
    simp [Json.depth] at hn
  | bound + 1 => by
    -- What the payload holds nests less deep than the payload, so `ih` reads it.
    have ih := readsBelow bound
    have hnull := ofJsonWithin?_null bound
    intro e j written hn
    cases e with
    | literal value span =>
      obtain ⟨v, r, rfl, hr, hvalue, hspan⟩ :=
        written.exists_payload ["value", "span"] rfl (by decide) hn
      have hvalue := hvalue.get?_eq (Literal.reads.below _) value.not_isDefault
      simp [Expr.ofJsonWithin?, Json.variant?, hr, hvalue, hspan.span_eq]
    | name ident span =>
      obtain ⟨v, r, rfl, hr, hname, hspan⟩ :=
        written.exists_payload ["name", "span"] rfl (by decide) hn
      simp [Expr.ofJsonWithin?, Json.variant?, hr, hname.str_eq, hspan.span_eq]
    | thisRef span =>
      cases written with
      | variant _ h => simp [Expr.ofJsonWithin?, Json.variant?, Span.reads span _ h]
    | binary left op right span =>
      obtain ⟨v, r, rfl, hr, hleft, hop, hright, hspan⟩ :=
        written.exists_payload ["left", "operator", "right", "span"] rfl (by decide) hn
      have hop := Record.Holds.get?_eq (BinaryOp.reads.below _) hop id
      simp [Expr.ofJsonWithin?, Json.variant?, hr, hleft.expr_eq ih, hop, hright.expr_eq ih,
        hspan.span_eq]
    | unary op operand span =>
      obtain ⟨v, r, rfl, hr, hop, hoperand, hspan⟩ :=
        written.exists_payload ["operator", "operand", "span"] rfl (by decide) hn
      have hop := Record.Holds.get?_eq (UnaryOp.reads.below _) hop id
      simp [Expr.ofJsonWithin?, Json.variant?, hr, hop, hoperand.expr_eq ih, hspan.span_eq]
    | assign target value span =>
      obtain ⟨v, r, rfl, hr, htarget, hvalue, hspan⟩ :=
        written.exists_payload ["target", "value", "span"] rfl (by decide) hn
      simp [Expr.ofJsonWithin?, Json.variant?, hr, htarget.expr_eq ih, hvalue.expr_eq ih,
        hspan.span_eq]
    | call target ident arguments span =>
      obtain ⟨v, r, rfl, hr, htarget, hname, harguments, hspan⟩ :=
        written.exists_payload ["target", "name", "arguments", "span"] rfl (by decide) hn
      simp [Expr.ofJsonWithin?, Json.variant?, hr, htarget.exprOption_eq ih hnull, hname.str_eq,
        harguments.exprs_eq ih, hspan.span_eq]
    | field target ident span =>
      obtain ⟨v, r, rfl, hr, htarget, hname, hspan⟩ :=
        written.exists_payload ["target", "name", "span"] rfl (by decide) hn
      simp [Expr.ofJsonWithin?, Json.variant?, hr, htarget.expr_eq ih, hname.str_eq, hspan.span_eq]
    | element array index span =>
      obtain ⟨v, r, rfl, hr, harray, hindex, hspan⟩ :=
        written.exists_payload ["array", "index", "span"] rfl (by decide) hn
      simp [Expr.ofJsonWithin?, Json.variant?, hr, harray.expr_eq ih, hindex.expr_eq ih,
        hspan.span_eq]
    | cast type operand span =>
      obtain ⟨v, r, rfl, hr, htype, hoperand, hspan⟩ :=
        written.exists_payload ["target_type", "expr", "span"] rfl (by decide) hn
      simp [Expr.ofJsonWithin?, Json.variant?, hr, htype.type_eq, hoperand.expr_eq ih,
        hspan.span_eq]
    | instanceOf operand type span =>
      obtain ⟨v, r, rfl, hr, hoperand, htype, hspan⟩ :=
        written.exists_payload ["expr", "target_type", "span"] rfl (by decide) hn
      simp [Expr.ofJsonWithin?, Json.variant?, hr, hoperand.expr_eq ih, htype.type_eq,
        hspan.span_eq]
    | new type arguments span =>
      obtain ⟨v, r, rfl, hr, htype, harguments, hspan⟩ :=
        written.exists_payload ["target_type", "arguments", "span"] rfl (by decide) hn
      simp [Expr.ofJsonWithin?, Json.variant?, hr, htype.type_eq, harguments.exprs_eq ih,
        hspan.span_eq]
    | newArray type size span =>
      obtain ⟨v, r, rfl, hr, htype, hsize, hspan⟩ :=
        written.exists_payload ["element_type", "size", "span"] rfl (by decide) hn
      simp [Expr.ofJsonWithin?, Json.variant?, hr, htype.type_eq, hsize.expr_eq ih, hspan.span_eq]

theorem reads : Reads Expr.ofJson? Expr.shape := fun e j written =>
  readsBelow j.depth e j written (Nat.lt_succ_self _)

theorem ofJson?_null : Expr.ofJson? .null = none :=
  ofJsonWithin?_null _

end Expr

/-! ### Statements -/

namespace Stmt

theorem shapes_eq : ∀ ss : List Stmt, Stmt.shapes ss = ss.map Stmt.shape
  | [] => rfl
  | s :: ss => by rw [Stmt.shapes, shapes_eq ss, List.map_cons]

theorem shapeOption_eq : ∀ o : Option Stmt, Stmt.shapeOption o = .ofOption Stmt.shape o
  | none => rfl
  | some _ => rfl

theorem not_isDefault (s : Stmt) : ¬ s.shape.IsDefault := by
  cases s <;> exact id

end Stmt

namespace Record

variable {r : Record} {n : Nat} {field : String} {read : Json → Option Stmt}

theorem Holds.stmt_eq (hread : ReadsBelow n read Stmt.shape) {s : Stmt}
    (h : r.Holds n (field, s.shape)) : r.get? field read = some s :=
  h.get?_eq hread s.not_isDefault

theorem Holds.stmts_eq (hread : ReadsBelow n read Stmt.shape) {ss : List Stmt}
    (h : r.Holds n (field, .list (Stmt.shapes ss))) :
    r.getD? field [] (Json.list? read) = some ss :=
  Holds.list_eq hread (by rwa [Stmt.shapes_eq] at h)

theorem Holds.stmtOption_eq (hread : ReadsBelow n read Stmt.shape) (hnull : read .null = none)
    {o : Option Stmt} (h : r.Holds n (field, Stmt.shapeOption o)) :
    r.getD? field none (Json.option? read) = some o :=
  Holds.option_eq hread hnull (by rwa [Stmt.shapeOption_eq] at h)

end Record

namespace Stmt

theorem ofJsonWithin?_null (bound : Nat) : Stmt.ofJsonWithin? bound .null = none := by
  cases bound <;> rfl

/-- The reader of statements takes every form of a statement that nests less
deep than its bound. -/
theorem readsBelow : ∀ bound, ReadsBelow bound (Stmt.ofJsonWithin? bound) Stmt.shape
  | 0 => fun _ _ _ hn => absurd hn (Nat.not_lt_zero _)
  | bound + 1 => by
    have ih := readsBelow bound
    have hnull := ofJsonWithin?_null bound
    have hexpr := Expr.reads.below bound
    intro s j written hn
    cases s with
    | expr e span =>
      obtain ⟨v, r, rfl, hr, he, hspan⟩ :=
        written.exists_payload ["expr", "span"] rfl (by decide) hn
      simp [Stmt.ofJsonWithin?, Json.variant?, hr, he.expr_eq hexpr, hspan.span_eq]
    | localVar type name initializer span =>
      obtain ⟨v, r, rfl, hr, htype, hname, hinitializer, hspan⟩ :=
        written.exists_payload ["type_ref", "name", "initializer", "span"] rfl (by decide) hn
      simp [Stmt.ofJsonWithin?, Json.variant?, hr, htype.type_eq, hname.str_eq,
        hinitializer.expr_eq hexpr, hspan.span_eq]
    | branch condition thenPart elsePart span =>
      obtain ⟨v, r, rfl, hr, hcondition, hthen, helse, hspan⟩ :=
        written.exists_payload ["condition", "then_branch", "else_branch", "span"] rfl (by decide)
          hn
      simp [Stmt.ofJsonWithin?, Json.variant?, hr, hcondition.expr_eq hexpr, hthen.stmt_eq ih,
        helse.stmtOption_eq ih hnull, hspan.span_eq]
    | whileLoop condition body span =>
      obtain ⟨v, r, rfl, hr, hcondition, hbody, hspan⟩ :=
        written.exists_payload ["condition", "body", "span"] rfl (by decide) hn
      simp [Stmt.ofJsonWithin?, Json.variant?, hr, hcondition.expr_eq hexpr, hbody.stmt_eq ih,
        hspan.span_eq]
    | forLoop init condition update body span =>
      obtain ⟨v, r, rfl, hr, hinit, hcondition, hupdate, hbody, hspan⟩ :=
        written.exists_payload ["init", "condition", "update", "body", "span"] rfl (by decide) hn
      simp [Stmt.ofJsonWithin?, Json.variant?, hr, hinit.stmtOption_eq ih hnull,
        hcondition.exprOption_eq hexpr Expr.ofJson?_null,
        hupdate.exprOption_eq hexpr Expr.ofJson?_null, hbody.stmt_eq ih, hspan.span_eq]
    | ret value span =>
      obtain ⟨v, r, rfl, hr, hvalue, hspan⟩ :=
        written.exists_payload ["value", "span"] rfl (by decide) hn
      simp [Stmt.ofJsonWithin?, Json.variant?, hr,
        hvalue.exprOption_eq hexpr Expr.ofJson?_null, hspan.span_eq]
    | block statements span =>
      obtain ⟨v, r, rfl, hr, hstatements, hspan⟩ :=
        written.exists_payload ["statements", "span"] rfl (by decide) hn
      simp [Stmt.ofJsonWithin?, Json.variant?, hr, hstatements.stmts_eq ih, hspan.span_eq]
    | empty => cases written <;> simp [Stmt.ofJsonWithin?, Json.variant?]

theorem reads : Reads Stmt.ofJson? Stmt.shape := fun s j written =>
  readsBelow (j.depth + 1) s j written (Nat.lt_succ_self _)

end Stmt

/-! ### Declarations -/

theorem Block.reads : Reads Block.ofJson? Block.shape := by
  intro b j written
  obtain ⟨r, hr, statements, span⟩ :=
    written.exists_record ["statements", "span"] rfl (by decide)
  simp [Block.ofJson?, hr, statements.stmts_eq (Stmt.reads.below _), span.span_eq]

theorem Block.not_isDefault (b : Block) : ¬ b.shape.IsDefault := by
  simp [Block.shape, Shape.IsDefault, Span.shape]

theorem Parameter.reads : Reads Parameter.ofJson? Parameter.shape := by
  intro p j written
  obtain ⟨r, hr, type, name, span⟩ :=
    written.exists_record ["type_ref", "name", "span"] rfl (by decide)
  simp [Parameter.ofJson?, hr, type.type_eq, name.str_eq, span.span_eq]

namespace Record

variable {r : Record} {n : Nat}

theorem Holds.modifiers_eq {ms : List Modifier}
    (h : r.Holds n ("modifiers", .ofList Modifier.shape ms)) : r.modifiers? = some ms :=
  Holds.list_eq (Modifier.reads.below n) h

theorem Holds.parameters_eq {ps : List Parameter}
    (h : r.Holds n ("parameters", .ofList Parameter.shape ps)) : r.parameters? = some ps :=
  Holds.list_eq (Parameter.reads.below n) h

end Record

theorem FieldDecl.reads : Reads FieldDecl.ofJson? FieldDecl.shape := by
  intro f j written
  obtain ⟨r, hr, modifiers, type, name, initializer, span⟩ :=
    written.exists_record ["modifiers", "type_ref", "name", "initializer", "span"] rfl (by decide)
  simp [FieldDecl.ofJson?, hr, modifiers.modifiers_eq, type.type_eq, name.str_eq,
    initializer.exprOption_eq (Expr.reads.below _) Expr.ofJson?_null, span.span_eq]

theorem MethodDecl.reads : Reads MethodDecl.ofJson? MethodDecl.shape := by
  intro m j written
  obtain ⟨r, hr, modifiers, type, name, parameters, body, span⟩ :=
    written.exists_record ["modifiers", "return_type", "name", "parameters", "body", "span"] rfl
      (by decide)
  simp [MethodDecl.ofJson?, hr, modifiers.modifiers_eq,
    type.option_eq (TypeRef.reads.below _) rfl, name.str_eq, parameters.parameters_eq,
    body.option_eq (Block.reads.below _) rfl, span.span_eq]

theorem ConstructorDecl.reads : Reads ConstructorDecl.ofJson? ConstructorDecl.shape := by
  intro k j written
  obtain ⟨r, hr, modifiers, name, parameters, body, span⟩ :=
    written.exists_record ["modifiers", "name", "parameters", "body", "span"] rfl (by decide)
  simp [ConstructorDecl.ofJson?, hr, modifiers.modifiers_eq, name.str_eq,
    parameters.parameters_eq, body.get?_eq (Block.reads.below _) k.body.not_isDefault,
    span.span_eq]

theorem Member.reads : Reads Member.ofJson? Member.shape := by
  intro m j written
  cases m with
  | field f =>
    cases written with
    | variant _ h => simp [Member.ofJson?, Json.variant?, FieldDecl.reads f _ h]
  | method m =>
    cases written with
    | variant _ h => simp [Member.ofJson?, Json.variant?, MethodDecl.reads m _ h]
  | ctor k =>
    cases written with
    | variant _ h => simp [Member.ofJson?, Json.variant?, ConstructorDecl.reads k _ h]

theorem ClassDecl.reads : Reads ClassDecl.ofJson? ClassDecl.shape := by
  intro c j written
  obtain ⟨r, hr, modifiers, name, superclass, interfaces, members, span⟩ :=
    written.exists_record ["modifiers", "name", "extends", "implements", "body", "span"] rfl
      (by decide)
  simp [ClassDecl.ofJson?, hr, modifiers.modifiers_eq, name.str_eq,
    superclass.option_eq (TypeRef.reads.below _) rfl,
    interfaces.list_eq (TypeRef.reads.below _), members.list_eq (Member.reads.below _),
    span.span_eq]

theorem InterfaceDecl.reads : Reads InterfaceDecl.ofJson? InterfaceDecl.shape := by
  intro i j written
  obtain ⟨r, hr, modifiers, name, parents, methods, span⟩ :=
    written.exists_record ["modifiers", "name", "extends", "body", "span"] rfl (by decide)
  simp [InterfaceDecl.ofJson?, hr, modifiers.modifiers_eq, name.str_eq,
    parents.list_eq (TypeRef.reads.below _), methods.list_eq (MethodDecl.reads.below _),
    span.span_eq]

theorem TypeDecl.reads : Reads TypeDecl.ofJson? TypeDecl.shape := by
  intro d j written
  cases d with
  | ofClass c =>
    cases written with
    | variant _ h => simp [TypeDecl.ofJson?, Json.variant?, ClassDecl.reads c _ h]
  | ofInterface i =>
    cases written with
    | variant _ h => simp [TypeDecl.ofJson?, Json.variant?, InterfaceDecl.reads i _ h]

theorem TypeDecl.not_isDefault (d : TypeDecl) : ¬ d.shape.IsDefault := by
  cases d <;> exact id

theorem PackageDecl.reads : Reads PackageDecl.ofJson? PackageDecl.shape := by
  intro p j written
  obtain ⟨r, hr, name, span⟩ := written.exists_record ["name", "span"] rfl (by decide)
  simp [PackageDecl.ofJson?, hr, name.str_eq, span.span_eq]

theorem ImportDecl.reads : Reads ImportDecl.ofJson? ImportDecl.shape := by
  intro i j written
  obtain ⟨r, hr, name, onDemand, span⟩ :=
    written.exists_record ["name", "is_wildcard", "span"] rfl (by decide)
  simp [ImportDecl.ofJson?, hr, name.str_eq, onDemand.flag_eq, span.span_eq]

/-- The reader of units takes every form of a unit for that unit. -/
theorem CompilationUnit.reads : Reads CompilationUnit.ofJson? CompilationUnit.shape := by
  intro u j written
  obtain ⟨r, hr, package, imports, decl, span⟩ :=
    written.exists_record ["package_decl", "imports", "type_decl", "span"] rfl (by decide)
  simp [CompilationUnit.ofJson?, hr, package.option_eq (PackageDecl.reads.below _) rfl,
    imports.list_eq (ImportDecl.reads.below _),
    decl.get?_eq (TypeDecl.reads.below _) u.decl.not_isDefault, span.span_eq]

end ClassCompiler
