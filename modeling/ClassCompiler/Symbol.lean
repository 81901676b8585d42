import ClassCompiler.Member.Signature

/-!
# Symbols of the assembly

A qualified name becomes one assembler identifier: a dot is written as an
underscore, and an underscore or a dollar sign inside a segment as an
underscore and a digit. No segment starts with a digit, so the three never
meet. A dollar sign then sets off each parameter type of a routine, and the
double underscore at the start is left to the symbols of the compiler itself.

Key definitions: `Symbol.mangle`, `Symbol.ofMethod`, `Symbol.ofConstructor`,
`Symbol.vtable`, `Symbol.vtableInit`, `Symbol.temporary`.
-/

namespace ClassCompiler
namespace Symbol

def mangleChar (c : Char) : List Char :=
  if c = '.' then ['_']
  else if c = '_' then ['_', '0']
  else if c = '$' then ['_', '1']
  else [c]

/-- A qualified name as an assembler identifier. -/
def mangle (name : String) : String :=
  String.ofList (name.toList.flatMap mangleChar)

/-- The parameter types of a routine; an array is marked by an at sign. -/
def parameters (ps : List ParameterType) : String :=
  String.join (ps.map fun p => "$" ++ mangle p.typeName ++ if p.isArray then "@" else "")

/-- The entry point of a method. -/
def ofMethod (owner : String) (s : Signature) : String :=
  mangle owner ++ "_" ++ mangle s.name ++ parameters s.parameters

/-- The entry point of a constructor, whose name does not count. -/
def ofConstructor (owner : String) (s : Signature) : String :=
  "__ctor_" ++ mangle owner ++ parameters s.parameters

/-- The cell that holds the address of a class's vtable. -/
def vtable (className : String) : String :=
  "__vtable_" ++ mangle className

/-- The routine that fills a class's vtable. -/
def vtableInit (className : String) : String :=
  "__init_vtable_" ++ mangle className

/-- A label inside a routine. -/
def temporary (n : Nat) : String :=
  "__L" ++ toString n

/-- The routine that allocates memory; the runtime provides it. -/
def malloc : String := "__malloc"

def subtypeTable : String := "__subtype_table"

def selectorTable : String := "__selector_index_table"

def tablesInit : String := "__init_dispatch_tables"

/-- The file of a unit, by the qualified name of its type. -/
def unitFile (qualifiedName : String) : String :=
  mangle qualifiedName ++ ".s"

def tablesFile : String := "__dispatch_tables.s"

end Symbol
end ClassCompiler
