import ClassCompiler.Json.Basic
import ClassCompiler.Source.Decl

/-!
# The shape of source values

A source value is built of records, variants, lists, options and plain values.
`Shape` names these parts the way files and detailed listings show them; the
JSON form (`Shape.toJson`) and the detailed listing are both read off it, so
that field names and their order are written once.

Key definitions: `Shape`, `Shape.toJson`, `CompilationUnit.shape`.
-/

namespace ClassCompiler

inductive Shape where
  | flag (value : Bool)
  | number (value : Int)
  | text (value : String)
  | char (value : Char)
  | absent
  | present (value : Shape)
  | list (items : List Shape)
  | record (name : String) (fields : List (String × Shape))
  | tag (name : String)
  | variant (name : String) (payload : Shape)

namespace Shape

def ofOption (shape : α → Shape) : Option α → Shape
  | none => .absent
  | some a => .present (shape a)

def ofList (shape : α → Shape) (as : List α) : Shape :=
  .list (as.map shape)

mutual

/-- The JSON value of a shape: a record is an object, an absent value is null,
a variant that carries nothing is a text and any other an object of one key. -/
def toJson : Shape → Json
  | .flag b => .bool b
  | .number n => .int n
  | .text s => .str s
  | .char c => .str (String.ofList [c])
  | .absent => .null
  | .present s => toJson s
  | .list items => .arr (toJsonItems items)
  | .record _ fields => .obj (toJsonFields fields)
  | .tag name => .str name
  | .variant name payload => .obj [(name, toJson payload)]

def toJsonItems : List Shape → List Json
  | [] => []
  | s :: ss => toJson s :: toJsonItems ss

def toJsonFields : List (String × Shape) → List (String × Json)
  | [] => []
  | (name, s) :: fields => (name, toJson s) :: toJsonFields fields

end

theorem toJsonItems_eq : ∀ items : List Shape, toJsonItems items = items.map toJson
  | [] => rfl
  | _ :: ss => by simp [toJsonItems, toJsonItems_eq ss]

end Shape

def Location.shape (l : Location) : Shape :=
  .record "Location" [("line", .number l.line), ("column", .number l.column),
    ("offset", .number l.offset)]

def Span.shape (s : Span) : Shape :=
  .record "Span" [("start", s.start.shape), ("end", s.stop.shape)]

def TypeRef.shape (t : TypeRef) : Shape :=
  .record "TypeRef" [("name", .text t.name), ("is_array", .flag t.isArray),
    ("span", t.span.shape)]

def Literal.shape : Literal → Shape
  | .integer n => .variant "Integer" (.number n.toInt)
  | .boolean b => .variant "Boolean" (.flag b)
  | .char c => .variant "Char" (.char c)
  | .string s => .variant "String" (.text s)
  | .null => .tag "Null"

mutual

def Expr.shape : Expr → Shape
  | .literal value span => .variant "Literal" <| .record "LiteralExpr"
      [("value", value.shape), ("span", span.shape)]
  | .name ident span => .variant "Name" <| .record "NameExpr"
      [("name", .text ident), ("span", span.shape)]
  | .thisRef span => .variant "This" span.shape
  | .binary left op right span => .variant "Binary" <| .record "BinaryExpr"
      [("left", left.shape), ("operator", .tag op.name), ("right", right.shape),
        ("span", span.shape)]
  | .unary op operand span => .variant "Unary" <| .record "UnaryExpr"
      [("operator", .tag op.name), ("operand", operand.shape), ("span", span.shape)]
  | .assign target value span => .variant "Assignment" <| .record "AssignmentExpr"
      [("target", target.shape), ("value", value.shape), ("span", span.shape)]
  | .call target ident arguments span => .variant "MethodCall" <| .record "MethodCallExpr"
      [("target", Expr.shapeOption target), ("name", .text ident),
        ("arguments", .list (Expr.shapes arguments)), ("span", span.shape)]
  | .field target ident span => .variant "FieldAccess" <| .record "FieldAccessExpr"
      [("target", target.shape), ("name", .text ident), ("span", span.shape)]
  | .element array index span => .variant "ArrayAccess" <| .record "ArrayAccessExpr"
      [("array", array.shape), ("index", index.shape), ("span", span.shape)]
  | .cast type operand span => .variant "Cast" <| .record "CastExpr"
      [("target_type", type.shape), ("expr", operand.shape), ("span", span.shape)]
  | .instanceOf operand type span => .variant "InstanceOf" <| .record "InstanceOfExpr"
      [("expr", operand.shape), ("target_type", type.shape), ("span", span.shape)]
  | .new type arguments span => .variant "New" <| .record "NewExpr"
      [("target_type", type.shape), ("arguments", .list (Expr.shapes arguments)),
        ("span", span.shape)]
  | .newArray type size span => .variant "NewArray" <| .record "NewArrayExpr"
      [("element_type", type.shape), ("size", size.shape), ("span", span.shape)]

def Expr.shapes : List Expr → List Shape
  | [] => []
  | e :: es => e.shape :: Expr.shapes es

def Expr.shapeOption : Option Expr → Shape
  | none => .absent
  | some e => .present e.shape

end

mutual

def Stmt.shape : Stmt → Shape
  | .expr e span => .variant "Expression" <| .record "ExprStmt"
      [("expr", e.shape), ("span", span.shape)]
  | .localVar type name initializer span => .variant "LocalVar" <| .record "LocalVarDecl"
      [("type_ref", type.shape), ("name", .text name), ("initializer", initializer.shape),
        ("span", span.shape)]
  | .branch condition thenPart elsePart span => .variant "If" <| .record "IfStmt"
      [("condition", condition.shape), ("then_branch", thenPart.shape),
        ("else_branch", Stmt.shapeOption elsePart), ("span", span.shape)]
  | .whileLoop condition body span => .variant "While" <| .record "WhileStmt"
      [("condition", condition.shape), ("body", body.shape), ("span", span.shape)]
  | .forLoop init condition update body span => .variant "For" <| .record "ForStmt"
      [("init", Stmt.shapeOption init), ("condition", Expr.shapeOption condition),
        ("update", Expr.shapeOption update), ("body", body.shape), ("span", span.shape)]
  | .ret value span => .variant "Return" <| .record "ReturnStmt"
      [("value", Expr.shapeOption value), ("span", span.shape)]
  | .block statements span => .variant "Block" <| .record "Block"
      [("statements", .list (Stmt.shapes statements)), ("span", span.shape)]
  | .empty => .tag "Empty"

def Stmt.shapes : List Stmt → List Shape
  | [] => []
  | s :: ss => s.shape :: Stmt.shapes ss

def Stmt.shapeOption : Option Stmt → Shape
  | none => .absent
  | some s => .present s.shape

end

def Block.shape (b : Block) : Shape :=
  .record "Block" [("statements", .list (Stmt.shapes b.statements)), ("span", b.span.shape)]

def Modifier.shape (m : Modifier) : Shape := .tag m.name

def Parameter.shape (p : Parameter) : Shape :=
  .record "Parameter" [("type_ref", p.type.shape), ("name", .text p.name), ("span", p.span.shape)]

def FieldDecl.shape (f : FieldDecl) : Shape :=
  .record "FieldDecl" [("modifiers", .ofList Modifier.shape f.modifiers),
    ("type_ref", f.type.shape), ("name", .text f.name),
    ("initializer", Expr.shapeOption f.initializer), ("span", f.span.shape)]

def MethodDecl.shape (m : MethodDecl) : Shape :=
  .record "MethodDecl" [("modifiers", .ofList Modifier.shape m.modifiers),
    ("return_type", .ofOption TypeRef.shape m.returnType), ("name", .text m.name),
    ("parameters", .ofList Parameter.shape m.parameters), ("body", .ofOption Block.shape m.body),
    ("span", m.span.shape)]

def ConstructorDecl.shape (k : ConstructorDecl) : Shape :=
  .record "ConstructorDecl" [("modifiers", .ofList Modifier.shape k.modifiers),
    ("name", .text k.name), ("parameters", .ofList Parameter.shape k.parameters),
    ("body", k.body.shape), ("span", k.span.shape)]

def Member.shape : Member → Shape
  | .field f => .variant "Field" f.shape
  | .method m => .variant "Method" m.shape
  | .ctor k => .variant "Constructor" k.shape

def ClassDecl.shape (c : ClassDecl) : Shape :=
  .record "ClassDecl" [("modifiers", .ofList Modifier.shape c.modifiers), ("name", .text c.name),
    ("extends", .ofOption TypeRef.shape c.superclass),
    ("implements", .ofList TypeRef.shape c.interfaces), ("body", .ofList Member.shape c.members),
    ("span", c.span.shape)]

def InterfaceDecl.shape (i : InterfaceDecl) : Shape :=
  .record "InterfaceDecl" [("modifiers", .ofList Modifier.shape i.modifiers),
    ("name", .text i.name), ("extends", .ofList TypeRef.shape i.parents),
    ("body", .ofList MethodDecl.shape i.methods), ("span", i.span.shape)]

def TypeDecl.shape : TypeDecl → Shape
  | .ofClass c => .variant "Class" c.shape
  | .ofInterface i => .variant "Interface" i.shape

def PackageDecl.shape (p : PackageDecl) : Shape :=
  .record "PackageDecl" [("name", .text p.name), ("span", p.span.shape)]

def ImportDecl.shape (i : ImportDecl) : Shape :=
  .record "ImportDecl" [("name", .text i.name), ("is_wildcard", .flag i.onDemand),
    ("span", i.span.shape)]

def CompilationUnit.shape (u : CompilationUnit) : Shape :=
  .record "CompilationUnit" [("package_decl", .ofOption PackageDecl.shape u.package),
    ("imports", .ofList ImportDecl.shape u.imports), ("type_decl", u.decl.shape),
    ("span", u.span.shape)]

/-- The JSON value that a unit is written as. -/
def CompilationUnit.toJson (u : CompilationUnit) : Json :=
  u.shape.toJson

end ClassCompiler
