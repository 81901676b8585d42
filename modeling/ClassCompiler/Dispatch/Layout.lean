import ClassCompiler.Symbol

/-!
# Dispatch layouts

How methods are found at run time: the types in order (a type's id is its
place), for each class the slots of its vtable, the columns that interface
methods have in the selector table, which type is a subtype of which, and the
routine that each class has for each interface method.

A layout may also come from a file; nothing here depends on how it was made.

Key definitions: `VtableEntry`, `ClassLayout`, `InterfaceSlot`, `Layout`,
`Layout.class?`, `Layout.isSubtype`, `ClassLayout.slot?`.
-/

namespace ClassCompiler

/-- A slot of a vtable. An abstract method has no code to enter. -/
structure VtableEntry where
  signature : Signature
  owner : String
  label : String
  isAbstract : Bool
deriving DecidableEq

structure ClassLayout where
  name : String
  classId : Nat
  typeId : Nat
  vtable : List VtableEntry
deriving DecidableEq

namespace ClassLayout

/-- The slot of a signature in the vtable of a class. -/
def slot? (c : ClassLayout) (s : Signature) : Option Nat :=
  c.vtable.findIdx? fun e => e.signature = s

end ClassLayout

/-- A column of the selector table, and the interfaces that declare it. -/
structure InterfaceSlot where
  signature : Signature
  declaredBy : List Nat
deriving DecidableEq

structure Layout where
  types : List String
  classes : List ClassLayout
  interfaceSlots : List InterfaceSlot
  subtypes : List (List Bool)
  selector : List (List (Option String))
deriving DecidableEq

namespace Layout

/-- The first place of a type's name. -/
def typeId? (l : Layout) (name : String) : Option Nat :=
  l.types.findIdx? fun t => t = name

def class? (l : Layout) (name : String) : Option ClassLayout :=
  l.classes.find? fun c => c.name = name

/-- Whether a type is a subtype of another; no type is one of an unknown type. -/
def isSubtype (l : Layout) (sub sup : Nat) : Bool :=
  ((l.subtypes[sub]?).bind fun row => row[sup]?).getD false

end Layout
end ClassCompiler
