import ClassCompiler.Source.Decl

/-!
# Signatures and methods

What the hierarchy knows of a routine: whose it is, its signature, what it
returns and its modifiers as a set. Two routines have one signature if their
names and their parameter types agree; the names of parameters do not count.
A constructor is a routine that returns nothing.

Key definitions: `ParameterType`, `Signature`, `Signature.compare`, `Method`,
`Method.ofDecl`, `Method.ofConstructor`.
-/

namespace ClassCompiler

structure ParameterType where
  typeName : String
  isArray : Bool
deriving DecidableEq

namespace ParameterType

def ofTypeRef (t : TypeRef) : ParameterType := ⟨t.name, t.isArray⟩

def text (p : ParameterType) : String :=
  if p.isArray then p.typeName ++ "[]" else p.typeName

/-- By name, then a plain type before an array. -/
def compare (a b : ParameterType) : Ordering :=
  (Ord.compare a.typeName b.typeName).then (Ord.compare a.isArray b.isArray)

end ParameterType

structure Signature where
  name : String
  parameters : List ParameterType
deriving DecidableEq

namespace Signature

/-- A signature as messages and comments show it. -/
def text (s : Signature) : String :=
  s.name ++ "(" ++ String.intercalate ", " (s.parameters.map (·.text)) ++ ")"

/-- Two lists item by item; a list comes before those that extend it. -/
def compareLists (cmp : α → α → Ordering) : List α → List α → Ordering
  | [], [] => .eq
  | [], _ :: _ => .lt
  | _ :: _, [] => .gt
  | a :: as, b :: bs => (cmp a b).then (compareLists cmp as bs)

/-- By name, then by the parameter types in order. -/
def compare (a b : Signature) : Ordering :=
  (Ord.compare a.name b.name).then
    (compareLists ParameterType.compare a.parameters b.parameters)

/-- The signatures in order; equal ones keep their places. -/
def sort (ss : List Signature) : List Signature :=
  ss.mergeSort fun a b => (a.compare b).isLE

end Signature

structure Method where
  owner : String
  signature : Signature
  returnType : Option ParameterType
  modifiers : List Modifier
deriving DecidableEq

namespace Method

def signatureOf (name : String) (parameters : List Parameter) : Signature :=
  ⟨name, parameters.map fun p => .ofTypeRef p.type⟩

def ofDecl (owner : String) (m : MethodDecl) : Method where
  owner := owner
  signature := signatureOf m.name m.parameters
  returnType := m.returnType.map .ofTypeRef
  modifiers := Modifier.setOf m.modifiers

def ofConstructor (owner : String) (k : ConstructorDecl) : Method where
  owner := owner
  signature := signatureOf k.name k.parameters
  returnType := none
  modifiers := Modifier.setOf k.modifiers

/-- The method of a member; a field is none. -/
def ofMember? (owner : String) : Member → Option Method
  | .field _ => none
  | .method m => some (ofDecl owner m)
  | .ctor k => some (ofConstructor owner k)

def has (m : Method) (modifier : Modifier) : Bool :=
  m.modifiers.contains modifier

def returnText (m : Method) : String :=
  match m.returnType with
  | none => "void"
  | some t => t.text

/-- A method as messages show it. -/
def text (m : Method) : String :=
  m.returnText ++ " " ++ m.owner ++ "." ++ m.signature.text

end Method
end ClassCompiler
