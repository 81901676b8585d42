import ClassCompiler.Error
import ClassCompiler.Proofs.Source.Parts

/-!
# What a unit needs code for

The constructs of a unit are listed in the order in which their code comes: its
fields, its methods without a body, and the expressions of its bodies, each with
the names that are bound where it stands. Whether a construct has code is seen
from the construct alone, and so is the error if it has none.

Key definitions: `Construct`, `Construct.IsSupported`, `Construct.IsDefect`,
`Construct.error?`, `Stmt.constructs`, `CompilationUnit.constructs`.

Key theorems: `Construct.error?_eq_none`, `Construct.error?_cases`.
-/

namespace ClassCompiler

/-! ### Constructs -/

/-- The number fits in a word, where the least number may be written without its
sign. -/
def Literal.IsSupported : Literal → Prop
  | .integer n => -0x80000000 ≤ n.toInt ∧ n.toInt ≤ 0x80000000
  | .string _ => False
  | .boolean _ | .char _ | .null => True

/-- The expression is a name that is bound. -/
def Expr.IsBoundName (bound : List String) : Expr → Prop
  | .name ident _ => ident ∈ bound
  | _ => False

/-- The expression itself has code, whatever is in it. -/
def Expr.IsSupported (bound : List String) : Expr → Prop
  | .literal value _ => value.IsSupported
  | .name ident span => (Expr.name ident span).IsBoundName bound
  | .unary .. | .binary .. => True
  | .assign target _ _ => target.IsBoundName bound
  | _ => False

/-- Something that code is generated for: a field, a method without a body, or an
expression with the names that are bound where it stands. -/
inductive Construct where
  | field (decl : FieldDecl)
  | bodyless (owner : String) (decl : MethodDecl)
  | expr (bound : List String) (expr : Expr)

namespace Construct

def IsSupported : Construct → Prop
  | .field f => f.initializer = none
  | .bodyless _ m => (m.has .isAbstract = true ∨ m.has .isNative = true) ∧
      ¬ (m.has .isNative = true ∧ m.has .isStatic = false)
  | .expr bound e => e.IsSupported bound

/-- An earlier stage should have ruled the construct out: the compiler is at
fault, and not the program. -/
def IsDefect : Construct → Prop
  | .bodyless _ m => m.has .isAbstract = false ∧ m.has .isNative = false
  | .expr _ (.literal (.integer n) _) => n.toInt < -0x80000000 ∨ 0x80000000 < n.toInt
  | _ => False

end Construct

/-! ### Errors of constructs -/

def Literal.error? : Literal → Option Error
  | .integer n =>
    if -0x80000000 ≤ n.toInt ∧ n.toInt ≤ 0x80000000 then none
    else some (.internal (.literalRange n.toInt))
  | .string _ => some (.unsupported .stringLiteral)
  | .boolean _ | .char _ | .null => none

def Expr.error? (bound : List String) : Expr → Option Error
  | .literal value _ => value.error?
  | .name ident _ => if ident ∈ bound then none else some (.unsupported (.fieldAccess ident))
  | .unary .. | .binary .. => none
  | .assign (.name ident _) _ _ =>
    if ident ∈ bound then none else some (.unsupported .storeOutsideFrame)
  | .assign .. => some (.unsupported .storeOutsideFrame)
  | .thisRef _ => some (.unsupported .thisRef)
  | .call _ ident _ _ => some (.unsupported (.call ident))
  | .field _ ident _ => some (.unsupported (.fieldAccess ident))
  | .element .. => some (.unsupported .elementAccess)
  | .cast type _ _ => some (.unsupported (.cast type))
  | .instanceOf .. => some (.unsupported .instanceOf)
  | .new type _ _ => some (.unsupported (.new type))
  | .newArray type _ _ => some (.unsupported (.newArray type))

namespace Construct

/-- What the compiler says of a construct that has no code. -/
def error? : Construct → Option Error
  | .field f => f.initializer.map fun _ => .unsupported (.fieldInitializer f.name)
  | .bodyless owner m =>
    if m.has .isNative && !m.has .isStatic then
      some (.unsupported (.nativeInstanceMethod (.ofDecl owner m)))
    else if !m.has .isAbstract && !m.has .isNative then
      some (.internal (.missingBody (.ofDecl owner m)))
    else none
  | .expr bound e => e.error? bound

theorem error?_expr_eq_none {bound : List String} {e : Expr} :
    e.error? bound = none ↔ e.IsSupported bound := by
  cases e with
  | literal value =>
    cases value with
    | integer n => simp [Expr.error?, Literal.error?, Expr.IsSupported, Literal.IsSupported]
    | _ => simp [Expr.error?, Literal.error?, Expr.IsSupported, Literal.IsSupported]
  | name ident => simp [Expr.error?, Expr.IsSupported, Expr.IsBoundName]
  | assign target value =>
    cases target with
    | name ident => simp [Expr.error?, Expr.IsSupported, Expr.IsBoundName]
    | _ => simp [Expr.error?, Expr.IsSupported, Expr.IsBoundName]
  | _ => simp [Expr.error?, Expr.IsSupported]

theorem error?_eq_none {c : Construct} : c.error? = none ↔ c.IsSupported := by
  cases c with
  | field f => simp [error?, IsSupported]
  | bodyless owner m =>
    rw [error?, IsSupported]
    cases m.has .isAbstract <;> cases m.has .isNative <;> cases m.has .isStatic <;> simp
  | expr bound e => exact error?_expr_eq_none

instance (c : Construct) : Decidable c.IsSupported :=
  decidable_of_iff (c.error?.isNone = true) (Option.isNone_iff_eq_none.trans error?_eq_none)

/-- An error is a defect or an unsupported feature, and which of them is seen
from the construct. -/
theorem error?_cases {c : Construct} {e : Error} (h : c.error? = some e) :
    (c.IsDefect ∧ ((∃ m, e = .internal (.missingBody m)) ∨ ∃ n, e = .internal (.literalRange n))) ∨
    (¬ c.IsDefect ∧ ∃ feature, e = .unsupported feature) := by
  cases c with
  | field f =>
    obtain ⟨-, -, rfl⟩ := Option.map_eq_some_iff.mp h
    exact .inr ⟨id, _, rfl⟩
  | bodyless owner m =>
    rw [error?] at h
    rw [IsDefect]
    by_cases hn : (m.has .isNative && !m.has .isStatic) = true
    · rw [if_pos hn] at h
      obtain rfl := Option.some.inj h
      rw [Bool.and_eq_true] at hn
      refine .inr ⟨fun hd => ?_, _, rfl⟩
      cases hd.2.symm.trans hn.1
    · rw [if_neg hn] at h
      by_cases hb : (!m.has .isAbstract && !m.has .isNative) = true
      · rw [if_pos hb] at h
        obtain rfl := Option.some.inj h
        exact .inl ⟨by simpa using hb, .inl ⟨_, rfl⟩⟩
      · rw [if_neg hb] at h
        cases h
  | expr bound e =>
    cases e with
    | literal value =>
      cases value with
      | integer n =>
        rw [error?, Expr.error?, Literal.error?] at h
        split at h
        · cases h
        · rename_i hn
          have hdefect : n.toInt < -0x80000000 ∨ 0x80000000 < n.toInt := by omega
          exact .inl ⟨hdefect, .inr ⟨_, (Option.some.inj h).symm⟩⟩
      | string => exact .inr ⟨id, _, (Option.some.inj h).symm⟩
      | _ => cases h
    | name ident =>
      rw [error?, Expr.error?] at h
      split at h
      · cases h
      · exact .inr ⟨id, _, (Option.some.inj h).symm⟩
    | assign target value =>
      cases target with
      | name ident =>
        rw [error?, Expr.error?] at h
        split at h
        · cases h
        · exact .inr ⟨id, _, (Option.some.inj h).symm⟩
      | _ => exact .inr ⟨id, _, (Option.some.inj h).symm⟩
    | unary => cases h
    | binary => cases h
    | _ => exact .inr ⟨id, _, (Option.some.inj h).symm⟩

theorem findSome?_error?_eq_none {cs : List Construct} :
    cs.findSome? error? = none ↔ ∀ c ∈ cs, c.IsSupported := by
  simp only [List.findSome?_eq_none_iff, error?_eq_none]

/-- The first error is that of the first construct that has no code. -/
theorem findSome?_error?_eq_some {cs : List Construct} {e : Error} :
    cs.findSome? error? = some e ↔
      ∃ before c after, cs = before ++ c :: after ∧ (∀ b ∈ before, b.IsSupported) ∧
        c.error? = some e := by
  simp only [List.findSome?_eq_some_iff, error?_eq_none]
  simp only [and_comm]

end Construct

/-! ### The constructs of a unit -/

def Expr.constructs (bound : List String) (e : Expr) : List Construct :=
  e.parts.map (.expr bound)

def Expr.constructsOption (bound : List String) (o : Option Expr) : List Construct :=
  o.elim [] (Expr.constructs bound)

/-- The name that a statement binds in the statements after it. -/
def Stmt.binds : Stmt → List String
  | .localVar _ ident _ _ => [ident]
  | _ => []

def Stmt.bindsOption (o : Option Stmt) : List String :=
  o.elim [] Stmt.binds

mutual

/-- What a statement needs code for, in the order of the code, where some names
are bound. The update of a loop comes after its body. -/
def Stmt.constructs (bound : List String) : Stmt → List Construct
  | .expr e _ => e.constructs bound
  | .localVar _ _ initializer _ => initializer.constructs bound
  | .branch condition thenPart elsePart _ =>
    condition.constructs bound ++ (thenPart.constructs bound ++
      Stmt.constructsOption bound elsePart)
  | .whileLoop condition body _ => condition.constructs bound ++ body.constructs bound
  | .forLoop init condition update body _ =>
    Stmt.constructsOption bound init ++
      (Expr.constructsOption (Stmt.bindsOption init ++ bound) condition ++
        (body.constructs (Stmt.bindsOption init ++ bound) ++
          Expr.constructsOption (Stmt.bindsOption init ++ bound) update))
  | .ret value _ => Expr.constructsOption bound value
  | .block statements _ => Stmt.constructsAll bound statements
  | .empty => []

def Stmt.constructsOption (bound : List String) : Option Stmt → List Construct
  | none => []
  | some s => s.constructs bound

def Stmt.constructsAll (bound : List String) : List Stmt → List Construct
  | [] => []
  | s :: ss => s.constructs bound ++ Stmt.constructsAll (s.binds ++ bound) ss

end

/-- What a body needs code for. Of two parameters of one name the later is meant. -/
def Block.constructs (parameters : List Parameter) (b : Block) : List Construct :=
  Stmt.constructsAll (parameters.map (·.name)).reverse b.statements

def Member.constructs (owner : String) : Member → List Construct
  | .field f => [.field f]
  | .method m => m.body.elim [.bodyless owner m] (Block.constructs m.parameters)
  | .ctor k => k.body.constructs k.parameters

/-- What a unit needs code for; an interface has none. -/
def CompilationUnit.constructs (u : CompilationUnit) : List Construct :=
  match u.decl with
  | .ofClass c => c.members.flatMap (Member.constructs u.qualifiedName)
  | .ofInterface _ => []

end ClassCompiler
