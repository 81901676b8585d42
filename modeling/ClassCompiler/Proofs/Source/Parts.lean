import ClassCompiler.Source.Tree
import Mathlib.Data.List.Basic

/-!
# The parts of a unit without the walk

A walk goes through one tree of all nodes of a unit. What it comes across can
also be taken from the syntax: the expressions that an expression is made of, and
the local variables that the bodies of a unit declare, at any depth, each in
source order. `Tree.collect` is what a walk finds of one kind, and it finds
exactly these.

Key definitions: `Expr.parts`, `LocalDecl`, `Stmt.locals`, `CompilationUnit.locals`,
`Tree.collect`.

Key theorems: `Expr.collect_expr?`, `Stmt.collect_local?`, `CompilationUnit.collect_local?`.
-/

namespace ClassCompiler

/-! ### Expressions and declarations in the syntax -/

mutual

/-- An expression and all expressions in it, each before those in it. -/
def Expr.parts (e : Expr) : List Expr :=
  match e with
  | .literal .. | .name .. | .thisRef _ => [e]
  | .binary left _ right _ => e :: (left.parts ++ right.parts)
  | .assign target value _ => e :: (target.parts ++ value.parts)
  | .element array index _ => e :: (array.parts ++ index.parts)
  | .unary _ operand _ | .cast _ operand _ | .instanceOf operand _ _ => e :: operand.parts
  | .field target _ _ => e :: target.parts
  | .newArray _ size _ => e :: size.parts
  | .call target _ arguments _ => e :: (Expr.partsOption target ++ Expr.partsAll arguments)
  | .new _ arguments _ => e :: Expr.partsAll arguments

def Expr.partsAll : List Expr → List Expr
  | [] => []
  | e :: es => e.parts ++ Expr.partsAll es

def Expr.partsOption : Option Expr → List Expr
  | none => []
  | some e => e.parts

end

/-- A declaration of a local variable. -/
structure LocalDecl where
  name : String
  initializer : Expr

mutual

/-- The local variables that a statement declares, at any depth, in source order. -/
def Stmt.locals : Stmt → List LocalDecl
  | .localVar _ name initializer _ => [⟨name, initializer⟩]
  | .expr .. | .ret .. | .empty => []
  | .branch _ thenPart elsePart _ => thenPart.locals ++ Stmt.localsOption elsePart
  | .whileLoop _ body _ => body.locals
  | .forLoop init _ _ body _ => Stmt.localsOption init ++ body.locals
  | .block statements _ => Stmt.localsAll statements

def Stmt.localsAll : List Stmt → List LocalDecl
  | [] => []
  | s :: ss => s.locals ++ Stmt.localsAll ss

def Stmt.localsOption : Option Stmt → List LocalDecl
  | none => []
  | some s => s.locals

end

def MethodDecl.locals (m : MethodDecl) : List LocalDecl :=
  m.body.elim [] fun b => Stmt.localsAll b.statements

def Member.locals : Member → List LocalDecl
  | .field _ => []
  | .method m => m.locals
  | .ctor k => Stmt.localsAll k.body.statements

/-- The local variables of all bodies of a class or interface. -/
def CompilationUnit.locals (u : CompilationUnit) : List LocalDecl :=
  match u.decl with
  | .ofClass c => c.members.flatMap (·.locals)
  | .ofInterface i => i.methods.flatMap (·.locals)

/-! ### What a walk collects -/

namespace Tree

variable {β : Type}

/-- What the nodes of a tree give, a node before its children. -/
def collect (f : Node → Option β) (t : Tree) : List β :=
  t.preorder.filterMap fun t => f t.node

def collectAll (f : Node → Option β) (ts : List Tree) : List β :=
  ts.flatMap (collect f)

variable {f : Node → Option β}

theorem filterMap_preorderAll (ts : List Tree) :
    (preorderAll ts).filterMap (fun t => f t.node) = collectAll f ts := by
  induction ts with
  | nil => rfl
  | cons t ts ih =>
    rw [preorderAll, List.filterMap_append, ih]
    rfl

@[simp] theorem collect_branch (n : Node) (ts : List Tree) :
    collect f (.branch n ts) = (f n).toList ++ collectAll f ts := by
  have hnode : (branch n ts).node = n := rfl
  rw [collect, preorder, List.filterMap_cons, hnode, filterMap_preorderAll]
  rcases f n with _ | b
  · rfl
  · rfl

@[simp] theorem collect_leaf (n : Node) : collect f (.leaf n) = (f n).toList := by
  rw [leaf, collect_branch, collectAll, List.flatMap_nil, List.append_nil]

@[simp] theorem collectAll_nil : collectAll f [] = [] := rfl

@[simp] theorem collectAll_cons (t : Tree) (ts : List Tree) :
    collectAll f (t :: ts) = collect f t ++ collectAll f ts := List.flatMap_cons

@[simp] theorem collectAll_append (ts ts' : List Tree) :
    collectAll f (ts ++ ts') = collectAll f ts ++ collectAll f ts' := List.flatMap_append

@[simp] theorem collectAll_map {α : Type} (tree : α → Tree) (as : List α) :
    collectAll f (as.map tree) = as.flatMap fun a => collect f (tree a) := List.flatMap_map ..

theorem collectAll_map_eq_nil {α : Type} {tree : α → Tree} (h : ∀ a, collect f (tree a) = [])
    (as : List α) : collectAll f (as.map tree) = [] := by
  rw [collectAll_map, List.flatMap_eq_nil_iff]
  exact fun a _ => h a

end Tree

/-! ### Expressions -/

def Node.expr? : Node → Option Expr
  | .expr e => some e
  | _ => none

mutual

theorem Expr.collect_expr? : ∀ e : Expr, e.tree.collect Node.expr? = e.parts
  | .name .. | .literal .. | .thisRef _ => by simp [Expr.tree, Expr.parts, Node.expr?]
  | .binary left _ right _ => by
    simp [Expr.tree, Expr.parts, Node.expr?, left.collect_expr?, right.collect_expr?]
  | .assign target value _ => by
    simp [Expr.tree, Expr.parts, Node.expr?, target.collect_expr?, value.collect_expr?]
  | .element array index _ => by
    simp [Expr.tree, Expr.parts, Node.expr?, array.collect_expr?, index.collect_expr?]
  | .unary _ operand _ | .cast _ operand _ | .instanceOf operand _ _ => by
    simp [Expr.tree, Expr.parts, Node.expr?, TypeRef.tree, operand.collect_expr?]
  | .field target _ _ => by
    simp [Expr.tree, Expr.parts, Node.expr?, target.collect_expr?]
  | .newArray _ size _ => by
    simp [Expr.tree, Expr.parts, Node.expr?, TypeRef.tree, size.collect_expr?]
  | .call target _ arguments _ => by
    simp [Expr.tree, Expr.parts, Node.expr?, Expr.collectOption_expr? target,
      Expr.collectAll_expr? arguments]
  | .new _ arguments _ => by
    simp [Expr.tree, Expr.parts, Node.expr?, TypeRef.tree, Expr.collectAll_expr? arguments]

theorem Expr.collectAll_expr? : ∀ es : List Expr,
    Tree.collectAll Node.expr? (Expr.trees es) = Expr.partsAll es
  | [] => rfl
  | e :: es => by
    rw [Expr.trees, Tree.collectAll_cons, e.collect_expr?, Expr.collectAll_expr? es, Expr.partsAll]

theorem Expr.collectOption_expr? : ∀ o : Option Expr,
    Tree.collectAll Node.expr? (Expr.treesOption o) = Expr.partsOption o
  | none => rfl
  | some e => by
    rw [Expr.treesOption, Tree.collectAll_cons, e.collect_expr?, Tree.collectAll_nil,
      List.append_nil, Expr.partsOption]

end

/-! ### Declarations -/

/-- The declaration that a node is. -/
def Node.local? : Node → Option LocalDecl
  | .stmt (.localVar _ name initializer _) => some ⟨name, initializer⟩
  | _ => none

@[simp] theorem TypeRef.collect_local? (t : TypeRef) : t.tree.collect Node.local? = [] := by
  rw [TypeRef.tree, Tree.collect_leaf]
  rfl

mutual

/-- No expression declares a variable. -/
@[simp] theorem Expr.collect_local? : ∀ e : Expr, e.tree.collect Node.local? = []
  | .name .. | .literal .. | .thisRef _ => by simp [Expr.tree, Node.local?]
  | .binary left _ right _ => by
    simp [Expr.tree, Node.local?, left.collect_local?, right.collect_local?]
  | .assign target value _ => by
    simp [Expr.tree, Node.local?, target.collect_local?, value.collect_local?]
  | .element array index _ => by
    simp [Expr.tree, Node.local?, array.collect_local?, index.collect_local?]
  | .unary _ operand _ | .cast _ operand _ | .instanceOf operand _ _ => by
    simp [Expr.tree, Node.local?, operand.collect_local?]
  | .field target _ _ => by
    simp [Expr.tree, Node.local?, target.collect_local?]
  | .newArray _ size _ => by
    simp [Expr.tree, Node.local?, size.collect_local?]
  | .call target _ arguments _ => by
    simp [Expr.tree, Node.local?, Expr.collectOption_local? target, Expr.collectAll_local? arguments]
  | .new _ arguments _ => by
    simp [Expr.tree, Node.local?, Expr.collectAll_local? arguments]

@[simp] theorem Expr.collectAll_local? : ∀ es : List Expr,
    Tree.collectAll Node.local? (Expr.trees es) = []
  | [] => rfl
  | e :: es => by
    rw [Expr.trees, Tree.collectAll_cons, e.collect_local?, Expr.collectAll_local? es]
    rfl

@[simp] theorem Expr.collectOption_local? : ∀ o : Option Expr,
    Tree.collectAll Node.local? (Expr.treesOption o) = []
  | none => rfl
  | some e => by
    rw [Expr.treesOption, Tree.collectAll_cons, e.collect_local?]
    rfl

end

mutual

theorem Stmt.collect_local? : ∀ s : Stmt, s.tree.collect Node.local? = s.locals
  | .localVar .. | .expr .. | .ret .. | .empty => by
    simp [Stmt.tree, Stmt.locals, Node.local?]
  | .branch _ thenPart elsePart _ => by
    simp [Stmt.tree, Stmt.locals, Node.local?, thenPart.collect_local?,
      Stmt.collectOption_local? elsePart]
  | .whileLoop _ body _ => by
    simp [Stmt.tree, Stmt.locals, Node.local?, body.collect_local?]
  | .forLoop init _ _ body _ => by
    simp [Stmt.tree, Stmt.locals, Node.local?, body.collect_local?, Stmt.collectOption_local? init]
  | .block statements _ => by
    simp [Stmt.tree, Stmt.locals, Node.local?, Stmt.collectAll_local? statements]

theorem Stmt.collectAll_local? : ∀ ss : List Stmt,
    Tree.collectAll Node.local? (Stmt.trees ss) = Stmt.localsAll ss
  | [] => rfl
  | s :: ss => by
    rw [Stmt.trees, Tree.collectAll_cons, s.collect_local?, Stmt.collectAll_local? ss, Stmt.localsAll]

theorem Stmt.collectOption_local? : ∀ o : Option Stmt,
    Tree.collectAll Node.local? (Stmt.treesOption o) = Stmt.localsOption o
  | none => rfl
  | some s => by
    rw [Stmt.treesOption, Tree.collectAll_cons, s.collect_local?, Tree.collectAll_nil,
      List.append_nil, Stmt.localsOption]

end

theorem Block.collect_local? (b : Block) :
    b.tree.collect Node.local? = Stmt.localsAll b.statements := by
  simp [Block.tree, Node.local?, Stmt.collectAll_local?]

@[simp] theorem Parameter.collect_local? (p : Parameter) : p.tree.collect Node.local? = [] := by
  simp [Parameter.tree, Node.local?]

theorem MethodDecl.collect_local? (m : MethodDecl) : m.tree.collect Node.local? = m.locals := by
  have hreturn := Tree.collectAll_map_eq_nil TypeRef.collect_local? m.returnType.toList
  have hparameters := Tree.collectAll_map_eq_nil Parameter.collect_local? m.parameters
  rw [MethodDecl.tree, Tree.collect_branch, Tree.collectAll_append, Tree.collectAll_append, hreturn,
    hparameters, MethodDecl.locals]
  rcases m.body with _ | b
  · rfl
  · simp [Node.local?, b.collect_local?]

theorem Member.collect_local? (m : Member) : m.tree.collect Node.local? = m.locals := by
  cases m with
  | field f => simp [Member.tree, FieldDecl.tree, Member.locals, Node.local?]
  | method m => exact m.collect_local?
  | ctor k =>
    have hparameters := Tree.collectAll_map_eq_nil Parameter.collect_local? k.parameters
    rw [Member.tree, ConstructorDecl.tree, Tree.collect_branch, Tree.collectAll_append, hparameters]
    simp [Member.locals, Node.local?, k.body.collect_local?]

theorem ClassDecl.collect_local? (c : ClassDecl) :
    c.tree.collect Node.local? = c.members.flatMap (·.locals) := by
  have hsuper := Tree.collectAll_map_eq_nil TypeRef.collect_local? c.superclass.toList
  have hinterfaces := Tree.collectAll_map_eq_nil TypeRef.collect_local? c.interfaces
  rw [ClassDecl.tree, Tree.collect_branch, Tree.collectAll_append, Tree.collectAll_append, hsuper,
    hinterfaces, Tree.collectAll_map]
  simp [Node.local?, Member.collect_local?]

theorem InterfaceDecl.collect_local? (i : InterfaceDecl) :
    i.tree.collect Node.local? = i.methods.flatMap (·.locals) := by
  have hparents := Tree.collectAll_map_eq_nil TypeRef.collect_local? i.parents
  rw [InterfaceDecl.tree, Tree.collect_branch, Tree.collectAll_append, hparents, Tree.collectAll_map]
  simp [Node.local?, MethodDecl.collect_local?]

theorem CompilationUnit.collect_local? (u : CompilationUnit) :
    u.tree.collect Node.local? = u.locals := by
  have hpackage := Tree.collectAll_map_eq_nil (f := Node.local?)
    (fun p => Tree.collect_leaf (.package p)) u.package.toList
  have himports := Tree.collectAll_map_eq_nil (f := Node.local?)
    (fun i => Tree.collect_leaf (.importDecl i)) u.imports
  have hdecl : u.decl.tree.collect Node.local? = u.locals := by
    unfold CompilationUnit.locals
    cases u.decl with
    | ofClass c => exact c.collect_local?
    | ofInterface i => exact i.collect_local?
  rw [CompilationUnit.tree, Tree.collect_branch, Tree.collectAll_append, Tree.collectAll_append,
    hpackage, himports]
  simp [Node.local?, hdecl]

end ClassCompiler
