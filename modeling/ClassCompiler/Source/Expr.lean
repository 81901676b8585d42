import ClassCompiler.Source.Operator
import ClassCompiler.Source.Span

/-!
# Type references, expressions and statements

The bodies of routines. A block inside a body is a statement; the body itself
is a `Block`, which has the same two parts.

Key definitions: `TypeRef`, `Expr`, `Stmt`, `Block`.
-/

namespace ClassCompiler

/-- A type as it is written: its name, perhaps with a pair of brackets. -/
structure TypeRef where
  name : String
  isArray : Bool
  span : Span
deriving DecidableEq

namespace TypeRef

def named (name : String) : TypeRef := ⟨name, false, .zero⟩

def arrayOf (name : String) : TypeRef := ⟨name, true, .zero⟩

def text (t : TypeRef) : String :=
  if t.isArray then t.name ++ "[]" else t.name

end TypeRef

inductive Expr where
  | literal (value : Literal) (span : Span)
  | name (name : String) (span : Span)
  | thisRef (span : Span)
  | binary (left : Expr) (op : BinaryOp) (right : Expr) (span : Span)
  | unary (op : UnaryOp) (operand : Expr) (span : Span)
  | assign (target value : Expr) (span : Span)
  | call (target : Option Expr) (name : String) (arguments : List Expr) (span : Span)
  | field (target : Expr) (name : String) (span : Span)
  | element (array index : Expr) (span : Span)
  | cast (type : TypeRef) (operand : Expr) (span : Span)
  | instanceOf (operand : Expr) (type : TypeRef) (span : Span)
  | new (type : TypeRef) (arguments : List Expr) (span : Span)
  | newArray (element : TypeRef) (size : Expr) (span : Span)

instance : Inhabited Expr := ⟨.thisRef .zero⟩

namespace Expr

def ofInt (n : Int64) : Expr := .literal (.integer n) .zero

def ofBool (b : Bool) : Expr := .literal (.boolean b) .zero

def ofName (s : String) : Expr := .name s .zero

def ofBinary (left : Expr) (op : BinaryOp) (right : Expr) : Expr := .binary left op right .zero

def ofUnary (op : UnaryOp) (operand : Expr) : Expr := .unary op operand .zero

def span : Expr → Span
  | .literal _ s | .name _ s | .thisRef s | .binary _ _ _ s | .unary _ _ s | .assign _ _ s
  | .call _ _ _ s | .field _ _ s | .element _ _ s | .cast _ _ s | .instanceOf _ _ s
  | .new _ _ s | .newArray _ _ s => s

end Expr

inductive Stmt where
  | expr (expr : Expr) (span : Span)
  | localVar (type : TypeRef) (name : String) (initializer : Expr) (span : Span)
  | branch (condition : Expr) (thenPart : Stmt) (elsePart : Option Stmt) (span : Span)
  | whileLoop (condition : Expr) (body : Stmt) (span : Span)
  | forLoop (init : Option Stmt) (condition update : Option Expr) (body : Stmt) (span : Span)
  | ret (value : Option Expr) (span : Span)
  | block (statements : List Stmt) (span : Span)
  | empty

instance : Inhabited Stmt := ⟨.empty⟩

namespace Stmt

/-- The span of a statement; the empty statement has none of its own. -/
def span : Stmt → Span
  | .expr _ s | .localVar _ _ _ s | .branch _ _ _ s | .whileLoop _ _ s | .forLoop _ _ _ _ s
  | .ret _ s | .block _ s => s
  | .empty => .zero

end Stmt

/-- The body of a routine. -/
structure Block where
  statements : List Stmt
  span : Span

instance : Inhabited Block := ⟨[], .zero⟩

end ClassCompiler
