import ClassCompiler.Json.Basic
import ClassCompiler.Source.Decl

/-!
# Reading source values from JSON

Each record lists its fields in order, so that the list form of the record can
be read, and says for each field what it means if it is left out. Expressions
and statements nest, so their readers count down the nesting depth of the value
they are given, which is a bound on their own nesting.

A file holds one unit or a list of units. One unit is tried first: a list that
can be read as the fields of a unit is that unit.

Key definitions: `Expr.ofJson?`, `Stmt.ofJson?`, `CompilationUnit.ofJson?`,
`CompilationUnit.fileOfJson?`.
-/

namespace ClassCompiler

def Location.ofJson? (j : Json) : Option Location := do
  let r ← j.record? ["line", "column", "offset"]
  return ⟨← r.get? "line" Json.nat?, ← r.get? "column" Json.nat?, ← r.get? "offset" Json.nat?⟩

def Span.ofJson? (j : Json) : Option Span := do
  let r ← j.record? ["start", "end"]
  return ⟨← r.get? "start" Location.ofJson?, ← r.get? "end" Location.ofJson?⟩

/-- The span of a record; a record without one has the span of zeros. -/
def Record.span? (r : Record) : Option Span :=
  r.getD? "span" .zero Span.ofJson?

def TypeRef.ofJson? (j : Json) : Option TypeRef := do
  let r ← j.record? ["name", "is_array", "span"]
  return ⟨← r.get? "name" Json.str?, ← r.getD? "is_array" false Json.bool?, ← r.span?⟩

def Literal.ofJson? (j : Json) : Option Literal :=
  match j.variant? with
  | some ("Integer", some v) => v.int64?.map .integer
  | some ("Boolean", some v) => v.bool?.map .boolean
  | some ("Char", some v) => v.char?.map .char
  | some ("String", some v) => v.str?.map .string
  | some ("Null", none) => some .null
  | some ("Null", some .null) => some .null
  | _ => none

def BinaryOp.ofJson? (j : Json) : Option BinaryOp :=
  j.tag?.bind BinaryOp.ofName?

def UnaryOp.ofJson? (j : Json) : Option UnaryOp :=
  j.tag?.bind UnaryOp.ofName?

def Modifier.ofJson? (j : Json) : Option Modifier :=
  j.tag?.bind Modifier.ofName?

/-- An expression whose value nests at most `bound` deep. -/
def Expr.ofJsonWithin? : Nat → Json → Option Expr
  | 0, _ => none
  | bound + 1, j =>
    match j.variant? with
    | some ("Literal", some v) => do
      let r ← v.record? ["value", "span"]
      return .literal (← r.get? "value" Literal.ofJson?) (← r.span?)
    | some ("Name", some v) => do
      let r ← v.record? ["name", "span"]
      return .name (← r.get? "name" Json.str?) (← r.span?)
    | some ("This", some v) => (Span.ofJson? v).map .thisRef
    | some ("Binary", some v) => do
      let r ← v.record? ["left", "operator", "right", "span"]
      return .binary (← r.get? "left" (ofJsonWithin? bound)) (← r.get? "operator" BinaryOp.ofJson?)
        (← r.get? "right" (ofJsonWithin? bound)) (← r.span?)
    | some ("Unary", some v) => do
      let r ← v.record? ["operator", "operand", "span"]
      return .unary (← r.get? "operator" UnaryOp.ofJson?)
        (← r.get? "operand" (ofJsonWithin? bound)) (← r.span?)
    | some ("Assignment", some v) => do
      let r ← v.record? ["target", "value", "span"]
      return .assign (← r.get? "target" (ofJsonWithin? bound))
        (← r.get? "value" (ofJsonWithin? bound)) (← r.span?)
    | some ("MethodCall", some v) => do
      let r ← v.record? ["target", "name", "arguments", "span"]
      return .call (← r.getD? "target" none (Json.option? (ofJsonWithin? bound)))
        (← r.get? "name" Json.str?)
        (← r.getD? "arguments" [] (Json.list? (ofJsonWithin? bound))) (← r.span?)
    | some ("FieldAccess", some v) => do
      let r ← v.record? ["target", "name", "span"]
      return .field (← r.get? "target" (ofJsonWithin? bound)) (← r.get? "name" Json.str?)
        (← r.span?)
    | some ("ArrayAccess", some v) => do
      let r ← v.record? ["array", "index", "span"]
      return .element (← r.get? "array" (ofJsonWithin? bound))
        (← r.get? "index" (ofJsonWithin? bound)) (← r.span?)
    | some ("Cast", some v) => do
      let r ← v.record? ["target_type", "expr", "span"]
      return .cast (← r.get? "target_type" TypeRef.ofJson?)
        (← r.get? "expr" (ofJsonWithin? bound)) (← r.span?)
    | some ("InstanceOf", some v) => do
      let r ← v.record? ["expr", "target_type", "span"]
      return .instanceOf (← r.get? "expr" (ofJsonWithin? bound))
        (← r.get? "target_type" TypeRef.ofJson?) (← r.span?)
    | some ("New", some v) => do
      let r ← v.record? ["target_type", "arguments", "span"]
      return .new (← r.get? "target_type" TypeRef.ofJson?)
        (← r.getD? "arguments" [] (Json.list? (ofJsonWithin? bound))) (← r.span?)
    | some ("NewArray", some v) => do
      let r ← v.record? ["element_type", "size", "span"]
      return .newArray (← r.get? "element_type" TypeRef.ofJson?)
        (← r.get? "size" (ofJsonWithin? bound)) (← r.span?)
    | _ => none

def Expr.ofJson? (j : Json) : Option Expr :=
  Expr.ofJsonWithin? j.depth j

/-- A statement whose value nests less than `bound` deep. -/
def Stmt.ofJsonWithin? : Nat → Json → Option Stmt
  | 0, _ => none
  | bound + 1, j =>
    match j.variant? with
    | some ("Expression", some v) => do
      let r ← v.record? ["expr", "span"]
      return .expr (← r.get? "expr" Expr.ofJson?) (← r.span?)
    | some ("LocalVar", some v) => do
      let r ← v.record? ["type_ref", "name", "initializer", "span"]
      return .localVar (← r.get? "type_ref" TypeRef.ofJson?) (← r.get? "name" Json.str?)
        (← r.get? "initializer" Expr.ofJson?) (← r.span?)
    | some ("If", some v) => do
      let r ← v.record? ["condition", "then_branch", "else_branch", "span"]
      return .branch (← r.get? "condition" Expr.ofJson?)
        (← r.get? "then_branch" (ofJsonWithin? bound))
        (← r.getD? "else_branch" none (Json.option? (ofJsonWithin? bound))) (← r.span?)
    | some ("While", some v) => do
      let r ← v.record? ["condition", "body", "span"]
      return .whileLoop (← r.get? "condition" Expr.ofJson?)
        (← r.get? "body" (ofJsonWithin? bound)) (← r.span?)
    | some ("For", some v) => do
      let r ← v.record? ["init", "condition", "update", "body", "span"]
      return .forLoop (← r.getD? "init" none (Json.option? (ofJsonWithin? bound)))
        (← r.getD? "condition" none (Json.option? Expr.ofJson?))
        (← r.getD? "update" none (Json.option? Expr.ofJson?))
        (← r.get? "body" (ofJsonWithin? bound)) (← r.span?)
    | some ("Return", some v) => do
      let r ← v.record? ["value", "span"]
      return .ret (← r.getD? "value" none (Json.option? Expr.ofJson?)) (← r.span?)
    | some ("Block", some v) => do
      let r ← v.record? ["statements", "span"]
      return .block (← r.getD? "statements" [] (Json.list? (ofJsonWithin? bound))) (← r.span?)
    | some ("Empty", none) => some .empty
    | some ("Empty", some .null) => some .empty
    | _ => none

def Stmt.ofJson? (j : Json) : Option Stmt :=
  Stmt.ofJsonWithin? (j.depth + 1) j

def Block.ofJson? (j : Json) : Option Block := do
  let r ← j.record? ["statements", "span"]
  return ⟨← r.getD? "statements" [] (Json.list? Stmt.ofJson?), ← r.span?⟩

/-- The modifiers of a declaration; none if they are left out. -/
def Record.modifiers? (r : Record) : Option (List Modifier) :=
  r.getD? "modifiers" [] (Json.list? Modifier.ofJson?)

def Parameter.ofJson? (j : Json) : Option Parameter := do
  let r ← j.record? ["type_ref", "name", "span"]
  return ⟨← r.get? "type_ref" TypeRef.ofJson?, ← r.get? "name" Json.str?, ← r.span?⟩

/-- The parameters of a routine; none if they are left out. -/
def Record.parameters? (r : Record) : Option (List Parameter) :=
  r.getD? "parameters" [] (Json.list? Parameter.ofJson?)

def FieldDecl.ofJson? (j : Json) : Option FieldDecl := do
  let r ← j.record? ["modifiers", "type_ref", "name", "initializer", "span"]
  return {
    modifiers := ← r.modifiers?
    type := ← r.get? "type_ref" TypeRef.ofJson?
    name := ← r.get? "name" Json.str?
    initializer := ← r.getD? "initializer" none (Json.option? Expr.ofJson?)
    span := ← r.span? }

def MethodDecl.ofJson? (j : Json) : Option MethodDecl := do
  let r ← j.record? ["modifiers", "return_type", "name", "parameters", "body", "span"]
  return {
    modifiers := ← r.modifiers?
    returnType := ← r.getD? "return_type" none (Json.option? TypeRef.ofJson?)
    name := ← r.get? "name" Json.str?
    parameters := ← r.parameters?
    body := ← r.getD? "body" none (Json.option? Block.ofJson?)
    span := ← r.span? }

def ConstructorDecl.ofJson? (j : Json) : Option ConstructorDecl := do
  let r ← j.record? ["modifiers", "name", "parameters", "body", "span"]
  return {
    modifiers := ← r.modifiers?
    name := ← r.get? "name" Json.str?
    parameters := ← r.parameters?
    body := ← r.get? "body" Block.ofJson?
    span := ← r.span? }

def Member.ofJson? (j : Json) : Option Member :=
  match j.variant? with
  | some ("Field", some v) => (FieldDecl.ofJson? v).map .field
  | some ("Method", some v) => (MethodDecl.ofJson? v).map .method
  | some ("Constructor", some v) => (ConstructorDecl.ofJson? v).map .ctor
  | _ => none

def ClassDecl.ofJson? (j : Json) : Option ClassDecl := do
  let r ← j.record? ["modifiers", "name", "extends", "implements", "body", "span"]
  return {
    modifiers := ← r.modifiers?
    name := ← r.get? "name" Json.str?
    superclass := ← r.getD? "extends" none (Json.option? TypeRef.ofJson?)
    interfaces := ← r.getD? "implements" [] (Json.list? TypeRef.ofJson?)
    members := ← r.getD? "body" [] (Json.list? Member.ofJson?)
    span := ← r.span? }

def InterfaceDecl.ofJson? (j : Json) : Option InterfaceDecl := do
  let r ← j.record? ["modifiers", "name", "extends", "body", "span"]
  return {
    modifiers := ← r.modifiers?
    name := ← r.get? "name" Json.str?
    parents := ← r.getD? "extends" [] (Json.list? TypeRef.ofJson?)
    methods := ← r.getD? "body" [] (Json.list? MethodDecl.ofJson?)
    span := ← r.span? }

def TypeDecl.ofJson? (j : Json) : Option TypeDecl :=
  match j.variant? with
  | some ("Class", some v) => (ClassDecl.ofJson? v).map .ofClass
  | some ("Interface", some v) => (InterfaceDecl.ofJson? v).map .ofInterface
  | _ => none

def PackageDecl.ofJson? (j : Json) : Option PackageDecl := do
  let r ← j.record? ["name", "span"]
  return ⟨← r.get? "name" Json.str?, ← r.span?⟩

def ImportDecl.ofJson? (j : Json) : Option ImportDecl := do
  let r ← j.record? ["name", "is_wildcard", "span"]
  return ⟨← r.get? "name" Json.str?, ← r.getD? "is_wildcard" false Json.bool?, ← r.span?⟩

def CompilationUnit.ofJson? (j : Json) : Option CompilationUnit := do
  let r ← j.record? ["package_decl", "imports", "type_decl", "span"]
  return {
    package := ← r.getD? "package_decl" none (Json.option? PackageDecl.ofJson?)
    imports := ← r.getD? "imports" [] (Json.list? ImportDecl.ofJson?)
    decl := ← r.get? "type_decl" TypeDecl.ofJson?
    span := ← r.span? }

/-- The units of a file: one, or a list of them. -/
def CompilationUnit.fileOfJson? (j : Json) : Option (List CompilationUnit) :=
  match CompilationUnit.ofJson? j with
  | some u => some [u]
  | none => j.list? CompilationUnit.ofJson?

end ClassCompiler
