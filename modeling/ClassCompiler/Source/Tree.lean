import ClassCompiler.Source.Node

/-!
# The tree of a unit

`Node.tree` lays out a node and everything below it, children in source order,
as one uniform tree. A pass over a unit is a visitor that is taken through this
tree: it enters each node, goes through the children unless it declines to, and
leaves the node. What it keeps and how it fails is up to its monad.

A walk is the pass that only notes where it has been; told to stop, it ends with
the node just entered.

Key definitions: `Tree`, `Node.tree`, `Node.children`, `Tree.preorder`, `Tree.Visitor`,
`Tree.traverse`, `Tree.walk`.
-/

namespace ClassCompiler

inductive Tree where
  | branch (node : Node) (children : List Tree)

namespace Tree

def node : Tree → Node
  | .branch n _ => n

def children : Tree → List Tree
  | .branch _ ts => ts

def leaf (n : Node) : Tree := .branch n []

end Tree

def TypeRef.tree (t : TypeRef) : Tree := .leaf (.typeRef t)

mutual

def Expr.tree (e : Expr) : Tree :=
  match e with
  | .literal .. | .name .. | .thisRef .. => .leaf (.expr e)
  | .binary left _ right _ => .branch (.expr e) [left.tree, right.tree]
  | .unary _ operand _ => .branch (.expr e) [operand.tree]
  | .assign target value _ => .branch (.expr e) [target.tree, value.tree]
  | .call target _ arguments _ =>
    .branch (.expr e) (Expr.treesOption target ++ Expr.trees arguments)
  | .field target _ _ => .branch (.expr e) [target.tree]
  | .element array index _ => .branch (.expr e) [array.tree, index.tree]
  | .cast type operand _ => .branch (.expr e) [type.tree, operand.tree]
  | .instanceOf operand type _ => .branch (.expr e) [operand.tree, type.tree]
  | .new type arguments _ => .branch (.expr e) (type.tree :: Expr.trees arguments)
  | .newArray type size _ => .branch (.expr e) [type.tree, size.tree]

def Expr.trees : List Expr → List Tree
  | [] => []
  | e :: es => e.tree :: Expr.trees es

def Expr.treesOption : Option Expr → List Tree
  | none => []
  | some e => [e.tree]

end

mutual

def Stmt.tree (s : Stmt) : Tree :=
  match s with
  | .expr e _ => .branch (.stmt s) [e.tree]
  | .localVar type _ initializer _ => .branch (.stmt s) [type.tree, initializer.tree]
  | .branch condition thenPart elsePart _ =>
    .branch (.stmt s) (condition.tree :: thenPart.tree :: Stmt.treesOption elsePart)
  | .whileLoop condition body _ => .branch (.stmt s) [condition.tree, body.tree]
  | .forLoop init condition update body _ =>
    .branch (.stmt s) (Stmt.treesOption init ++ Expr.treesOption condition ++
      Expr.treesOption update ++ [body.tree])
  | .ret value _ => .branch (.stmt s) (Expr.treesOption value)
  | .block statements _ => .branch (.stmt s) (Stmt.trees statements)
  | .empty => .leaf (.stmt s)

def Stmt.trees : List Stmt → List Tree
  | [] => []
  | s :: ss => s.tree :: Stmt.trees ss

def Stmt.treesOption : Option Stmt → List Tree
  | none => []
  | some s => [s.tree]

end

def Block.tree (b : Block) : Tree :=
  .branch (.block b) (Stmt.trees b.statements)

def Parameter.tree (p : Parameter) : Tree :=
  .branch (.parameter p) [p.type.tree]

def FieldDecl.tree (f : FieldDecl) : Tree :=
  .branch (.field f) (f.type.tree :: Expr.treesOption f.initializer)

def MethodDecl.tree (m : MethodDecl) : Tree :=
  .branch (.method m) (m.returnType.toList.map (·.tree) ++ m.parameters.map (·.tree) ++
    m.body.toList.map (·.tree))

def ConstructorDecl.tree (k : ConstructorDecl) : Tree :=
  .branch (.ctor k) (k.parameters.map (·.tree) ++ [k.body.tree])

def Member.tree : Member → Tree
  | .field f => f.tree
  | .method m => m.tree
  | .ctor k => k.tree

def ClassDecl.tree (c : ClassDecl) : Tree :=
  .branch (.ofClass c) (c.superclass.toList.map (·.tree) ++ c.interfaces.map (·.tree) ++
    c.members.map (·.tree))

def InterfaceDecl.tree (i : InterfaceDecl) : Tree :=
  .branch (.ofInterface i) (i.parents.map (·.tree) ++ i.methods.map (·.tree))

def TypeDecl.tree : TypeDecl → Tree
  | .ofClass c => c.tree
  | .ofInterface i => i.tree

def CompilationUnit.tree (u : CompilationUnit) : Tree :=
  .branch (.unit u) (u.package.toList.map (.leaf <| .package ·) ++
    u.imports.map (.leaf <| .importDecl ·) ++ [u.decl.tree])

/-- A node with everything below it. -/
def Node.tree : Node → Tree
  | .unit u => u.tree
  | .package p => .leaf (.package p)
  | .importDecl i => .leaf (.importDecl i)
  | .ofClass c => c.tree
  | .ofInterface i => i.tree
  | .typeRef t => t.tree
  | .field f => f.tree
  | .method m => m.tree
  | .ctor k => k.tree
  | .parameter p => p.tree
  | .block b => b.tree
  | .stmt s => s.tree
  | .expr e => e.tree

/-- The nodes directly below a node, in source order. -/
def Node.children (n : Node) : List Node :=
  n.tree.children.map (·.node)

theorem Node.node_tree (n : Node) : n.tree.node = n := by
  cases n with
  | stmt s => cases s <;> rfl
  | expr e => cases e <;> rfl
  | _ => rfl

namespace Tree

mutual

/-- The trees of all nodes, a node before its children. -/
def preorder : Tree → List Tree
  | .branch n ts => .branch n ts :: preorderAll ts

def preorderAll : List Tree → List Tree
  | [] => []
  | t :: ts => preorder t ++ preorderAll ts

end

/-- What a pass does at a node: entering it says whether to go on to its children. -/
structure Visitor (m : Type → Type) where
  enter : Node → m Bool
  leave : Node → m Unit

mutual

/-- Take a visitor through a tree. -/
def traverse {m : Type → Type} [Monad m] (v : Visitor m) : Tree → m Unit
  | .branch n ts => do
    let deeper ← v.enter n
    if deeper then traverseAll v ts else pure ()
    v.leave n

def traverseAll {m : Type → Type} [Monad m] (v : Visitor m) : List Tree → m Unit
  | [] => pure ()
  | t :: ts => do
    traverse v t
    traverseAll v ts

end

/-- What a walk is told about a node it has entered. -/
inductive Visit where
  | descend
  | skip
  | stop
deriving DecidableEq

inductive Event where
  | enter (node : Node)
  | leave (node : Node)

/-- The events of a walk in order, and the node it stopped at, if it did. -/
structure Walk where
  events : List Event
  stoppedAt : Option Node

/-- The visitor that notes each event, and fails at a node to stop at. -/
def recorder (visit : Node → Visit) : Visitor (ExceptT Node (StateM (Array Event))) where
  enter n := do
    modify (·.push (.enter n))
    match visit n with
    | .stop => throw n
    | .skip => pure false
    | .descend => pure true
  leave n := modify (·.push (.leave n))

/-- Walk through a tree, asking `visit` at each node that is entered. -/
def walk (visit : Node → Visit) (t : Tree) : Walk :=
  match (t.traverse (recorder visit)).run.run #[] with
  | (.ok _, es) => ⟨es.toList, none⟩
  | (.error n, es) => ⟨es.toList, some n⟩

end Tree
end ClassCompiler
