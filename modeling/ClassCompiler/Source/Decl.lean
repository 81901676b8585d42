import ClassCompiler.Source.Expr
import ClassCompiler.Text.Segments

/-!
# Declarations and compilation units

A compilation unit is an optional package, its imports and one type
declaration. A class has at most one superclass and holds fields, methods and
constructors; an interface may have several parents and holds methods only.

Key definitions: `Modifier`, `MethodDecl`, `ConstructorDecl`, `ClassDecl`,
`InterfaceDecl`, `TypeDecl`, `CompilationUnit`, `CompilationUnit.qualifiedName`.
-/

namespace ClassCompiler

inductive Modifier where
  | isPublic | isProtected | isAbstract | isStatic | isFinal | isNative
deriving DecidableEq

namespace Modifier

/-- The modifiers in the order in which sets of them are listed. -/
def all : List Modifier :=
  [.isPublic, .isProtected, .isAbstract, .isStatic, .isFinal, .isNative]

/-- A modifier as it is written in source text. -/
def text : Modifier → String
  | .isPublic => "public"
  | .isProtected => "protected"
  | .isAbstract => "abstract"
  | .isStatic => "static"
  | .isFinal => "final"
  | .isNative => "native"

def name : Modifier → String
  | .isPublic => "Public"
  | .isProtected => "Protected"
  | .isAbstract => "Abstract"
  | .isStatic => "Static"
  | .isFinal => "Final"
  | .isNative => "Native"

def ofName? (s : String) : Option Modifier :=
  all.find? (·.name = s)

@[simp] theorem ofName?_name (m : Modifier) : ofName? m.name = some m := by
  cases m <;> decide

theorem mem_all (m : Modifier) : m ∈ all := by
  cases m <;> decide

/-- The modifiers of a list as a set: each once, in the fixed order. -/
def setOf (ms : List Modifier) : List Modifier :=
  all.filter ms.contains

@[simp] theorem mem_setOf {m : Modifier} {ms : List Modifier} : m ∈ setOf ms ↔ m ∈ ms := by
  simp [setOf, mem_all]

end Modifier

structure Parameter where
  type : TypeRef
  name : String
  span : Span

namespace Parameter

def of (type : TypeRef) (name : String) : Parameter := ⟨type, name, .zero⟩

end Parameter

structure FieldDecl where
  modifiers : List Modifier
  type : TypeRef
  name : String
  initializer : Option Expr
  span : Span

/-- A method; without a return type it returns nothing. -/
structure MethodDecl where
  modifiers : List Modifier
  returnType : Option TypeRef
  name : String
  parameters : List Parameter
  body : Option Block
  span : Span

namespace MethodDecl

def has (m : MethodDecl) (modifier : Modifier) : Bool :=
  m.modifiers.contains modifier

end MethodDecl

structure ConstructorDecl where
  modifiers : List Modifier
  name : String
  parameters : List Parameter
  body : Block
  span : Span

inductive Member where
  | field (decl : FieldDecl)
  | method (decl : MethodDecl)
  | ctor (decl : ConstructorDecl)

structure ClassDecl where
  modifiers : List Modifier
  name : String
  superclass : Option TypeRef
  interfaces : List TypeRef
  members : List Member
  span : Span

namespace ClassDecl

def methods (c : ClassDecl) : List MethodDecl :=
  c.members.filterMap fun
    | .method m => some m
    | _ => none

def constructors (c : ClassDecl) : List ConstructorDecl :=
  c.members.filterMap fun
    | .ctor k => some k
    | _ => none

end ClassDecl

structure InterfaceDecl where
  modifiers : List Modifier
  name : String
  parents : List TypeRef
  methods : List MethodDecl
  span : Span

inductive TypeDecl where
  | ofClass (decl : ClassDecl)
  | ofInterface (decl : InterfaceDecl)

namespace TypeDecl

def name : TypeDecl → String
  | .ofClass c => c.name
  | .ofInterface i => i.name

def modifiers : TypeDecl → List Modifier
  | .ofClass c => c.modifiers
  | .ofInterface i => i.modifiers

def text : TypeDecl → String
  | .ofClass c => "class " ++ c.name
  | .ofInterface i => "interface " ++ i.name

end TypeDecl

structure PackageDecl where
  name : String
  span : Span

namespace PackageDecl

def text (p : PackageDecl) : String :=
  "package " ++ p.name ++ ";"

end PackageDecl

/-- An import of one type, or of every type of a package on demand. -/
structure ImportDecl where
  name : String
  onDemand : Bool
  span : Span

namespace ImportDecl

def text (i : ImportDecl) : String :=
  if i.onDemand then "import " ++ i.name ++ ".*;" else "import " ++ i.name ++ ";"

/-- The name that an import of one type brings into view. -/
def simpleName (i : ImportDecl) : String :=
  Text.lastSegment i.name

end ImportDecl

structure CompilationUnit where
  package : Option PackageDecl
  imports : List ImportDecl
  decl : TypeDecl
  span : Span

namespace CompilationUnit

def of (decl : TypeDecl) : CompilationUnit := ⟨none, [], decl, .zero⟩

def withPackage (u : CompilationUnit) (name : String) : CompilationUnit :=
  { u with package := some ⟨name, .zero⟩ }

def withImport (u : CompilationUnit) (name : String) : CompilationUnit :=
  { u with imports := u.imports ++ [⟨name, false, .zero⟩] }

def withImportOnDemand (u : CompilationUnit) (name : String) : CompilationUnit :=
  { u with imports := u.imports ++ [⟨name, true, .zero⟩] }

/-- The name of the package; the unnamed package has the empty name. -/
def packageName (u : CompilationUnit) : String :=
  match u.package with
  | none => ""
  | some p => p.name

/-- The name of the declared type, with its package. -/
def qualifiedName (u : CompilationUnit) : String :=
  Text.qualify u.packageName u.decl.name

/-- Package, imports and the head of the declaration, a line each. -/
def text (u : CompilationUnit) : String :=
  Text.lines (u.package.toList.map (·.text) ++ u.imports.map (·.text) ++ [u.decl.text])

end CompilationUnit
end ClassCompiler
