import ClassCompiler.Source.Decl

/-!
# Nodes

One type for every part of a unit that a walk can stop at. A node has a kind,
a lexeme (the identifier, literal or operator it carries, empty if none) and a
span. A block of statements has the same kind whether it is the body of a
routine or a statement inside one.

Key definitions: `Node`, `NodeKind`, `Node.kind`, `Node.lexeme`, `Node.span`.
-/

namespace ClassCompiler

inductive Node where
  | unit (unit : CompilationUnit)
  | package (decl : PackageDecl)
  | importDecl (decl : ImportDecl)
  | ofClass (decl : ClassDecl)
  | ofInterface (decl : InterfaceDecl)
  | typeRef (type : TypeRef)
  | field (decl : FieldDecl)
  | method (decl : MethodDecl)
  | ctor (decl : ConstructorDecl)
  | parameter (parameter : Parameter)
  | block (block : Block)
  | stmt (stmt : Stmt)
  | expr (expr : Expr)

inductive NodeKind where
  | compilationUnit | packageDeclaration | importDeclaration
  | classDeclaration | interfaceDeclaration | type
  | fieldDeclaration | methodDeclaration | constructorDeclaration | formalParameter
  | block | expressionStatement | localVariableDeclaration
  | ifStatement | whileStatement | forStatement | returnStatement | emptyStatement
  | literal | name | this | binaryExpression | unaryExpression | assignment
  | methodInvocation | fieldAccess | arrayAccess | castExpression | instanceOfExpression
  | classInstanceCreation | arrayCreation
deriving DecidableEq

namespace NodeKind

/-- The name of a kind, as outlines and comments show it. -/
def text : NodeKind → String
  | .compilationUnit => "CompilationUnit"
  | .packageDeclaration => "PackageDeclaration"
  | .importDeclaration => "ImportDeclaration"
  | .classDeclaration => "ClassDeclaration"
  | .interfaceDeclaration => "InterfaceDeclaration"
  | .type => "Type"
  | .fieldDeclaration => "FieldDeclaration"
  | .methodDeclaration => "MethodDeclaration"
  | .constructorDeclaration => "ConstructorDeclaration"
  | .formalParameter => "FormalParameter"
  | .block => "Block"
  | .expressionStatement => "ExpressionStatement"
  | .localVariableDeclaration => "LocalVariableDeclaration"
  | .ifStatement => "IfStatement"
  | .whileStatement => "WhileStatement"
  | .forStatement => "ForStatement"
  | .returnStatement => "ReturnStatement"
  | .emptyStatement => "EmptyStatement"
  | .literal => "Literal"
  | .name => "Name"
  | .this => "This"
  | .binaryExpression => "BinaryExpression"
  | .unaryExpression => "UnaryExpression"
  | .assignment => "Assignment"
  | .methodInvocation => "MethodInvocation"
  | .fieldAccess => "FieldAccess"
  | .arrayAccess => "ArrayAccess"
  | .castExpression => "CastExpression"
  | .instanceOfExpression => "InstanceOfExpression"
  | .classInstanceCreation => "ClassInstanceCreation"
  | .arrayCreation => "ArrayCreation"

end NodeKind

def Stmt.kind : Stmt → NodeKind
  | .expr .. => .expressionStatement
  | .localVar .. => .localVariableDeclaration
  | .branch .. => .ifStatement
  | .whileLoop .. => .whileStatement
  | .forLoop .. => .forStatement
  | .ret .. => .returnStatement
  | .block .. => .block
  | .empty => .emptyStatement

def Expr.kind : Expr → NodeKind
  | .literal .. => .literal
  | .name .. => .name
  | .thisRef .. => .this
  | .binary .. => .binaryExpression
  | .unary .. => .unaryExpression
  | .assign .. => .assignment
  | .call .. => .methodInvocation
  | .field .. => .fieldAccess
  | .element .. => .arrayAccess
  | .cast .. => .castExpression
  | .instanceOf .. => .instanceOfExpression
  | .new .. => .classInstanceCreation
  | .newArray .. => .arrayCreation

def Expr.lexeme : Expr → String
  | .literal value _ => value.text
  | .name ident _ => ident
  | .thisRef _ => "this"
  | .binary _ op _ _ => op.symbol
  | .unary op _ _ => op.symbol
  | .assign .. => "="
  | .call _ ident _ _ => ident
  | .field _ ident _ => ident
  | _ => ""

namespace Node

def kind : Node → NodeKind
  | .unit _ => .compilationUnit
  | .package _ => .packageDeclaration
  | .importDecl _ => .importDeclaration
  | .ofClass _ => .classDeclaration
  | .ofInterface _ => .interfaceDeclaration
  | .typeRef _ => .type
  | .field _ => .fieldDeclaration
  | .method _ => .methodDeclaration
  | .ctor _ => .constructorDeclaration
  | .parameter _ => .formalParameter
  | .block _ => .block
  | .stmt s => s.kind
  | .expr e => e.kind

def lexeme : Node → String
  | .unit _ => ""
  | .package p => p.name
  | .importDecl i => i.name
  | .ofClass c => c.name
  | .ofInterface i => i.name
  | .typeRef t => t.text
  | .field f => f.name
  | .method m => m.name
  | .ctor k => k.name
  | .parameter p => p.name
  | .block _ => ""
  | .stmt (.localVar _ ident _ _) => ident
  | .stmt _ => ""
  | .expr e => e.lexeme

def span : Node → Span
  | .unit u => u.span
  | .package p => p.span
  | .importDecl i => i.span
  | .ofClass c => c.span
  | .ofInterface i => i.span
  | .typeRef t => t.span
  | .field f => f.span
  | .method m => m.span
  | .ctor k => k.span
  | .parameter p => p.span
  | .block b => b.span
  | .stmt s => s.span
  | .expr e => e.span

end Node
end ClassCompiler
