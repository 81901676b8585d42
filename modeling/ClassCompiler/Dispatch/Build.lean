import ClassCompiler.Dispatch.Layout
import ClassCompiler.Hierarchy.Declare

/-!
# The layout of a program

The vtable of a class is that of its superclass, where each method of the class
that is not static takes the slot of its signature, or a new one at the end. So
a signature keeps its slot in all subclasses. A vtable is made once and kept for
the classes that follow. While the vtables of its superclasses are made a class
is pending, and a chain of superclasses that comes back to a pending class has
no vtable.

The units need not be distinct: the type of a unit that is listed more than
once has the id of its last place in the subtype matrix.

Key definitions: `Vtable.install`, `Graph.vtableOf`, `Layout.classLayouts`,
`InterfaceSlot.add`, `Layout.ofGraph`.
-/

namespace ClassCompiler

namespace Vtable

def entry (m : Method) : VtableEntry where
  signature := m.signature
  owner := m.owner
  label := Symbol.ofMethod m.owner m.signature
  isAbstract := m.has .isAbstract

/-- Put an entry into the slot of its signature, or into a new one at the end. -/
def install (vtable : List VtableEntry) (new : VtableEntry) : List VtableEntry :=
  match vtable with
  | [] => [new]
  | old :: rest => if old.signature = new.signature then new :: rest else old :: install rest new

/-- A signature that has a slot keeps it, and a new one comes after all others. -/
theorem signatures_install (new : VtableEntry) : ∀ vtable : List VtableEntry,
    (install vtable new).map (·.signature) =
      if new.signature ∈ vtable.map (·.signature) then vtable.map (·.signature)
      else vtable.map (·.signature) ++ [new.signature]
  | [] => rfl
  | old :: rest => by
    by_cases h : old.signature = new.signature
    · simp [install, h]
    · have ih := signatures_install new rest
      have h' : ¬new.signature = old.signature := fun e => h e.symm
      simp only [install, h, ↓reduceIte, List.map_cons, ih, List.mem_cons, h', false_or]
      split <;> simp

/-- A vtable with the methods of one more class. -/
def extend (vtable : List VtableEntry) (methods : List Method) : List VtableEntry :=
  ((methods.filter fun m => !m.has .isStatic).map entry).foldl install vtable

end Vtable

/-- The vtables that have been made, by class. -/
abbrev VtableMemo := List (TypeId × List VtableEntry)

namespace Graph

/-- The vtable of a class on top of that of its superclass, kept in the memo. -/
def keepVtable (g : Graph) (id : TypeId) (above : List VtableEntry) (memo : VtableMemo) :
    List VtableEntry × VtableMemo :=
  let vtable := Vtable.extend above (g.node id).methods
  (vtable, (id, vtable) :: memo)

/-- The vtable of a class and the memo after it. The vtables of the `pending`
classes wait for this one; the error is one of them that the chain of
superclasses comes back to. A chain that passes no class twice is no longer than
there are types, so a bound above their number never runs out. -/
def vtableOf (g : Graph) : Nat → VtableMemo → List TypeId → TypeId →
    Except TypeId (List VtableEntry × VtableMemo)
  | 0, _, _, id => .error id
  | depth + 1, memo, pending, id =>
    match memo.lookup id with
    | some vtable => .ok (vtable, memo)
    | none =>
      if pending.contains id then .error id
      else
        match g.superclass? id with
        | none => .ok (g.keepVtable id [] memo)
        | some parent =>
          match g.vtableOf depth memo (id :: pending) parent with
          | .error met => .error met
          | .ok (above, memo) => .ok (g.keepVtable id above memo)

end Graph

namespace InterfaceSlot

/-- Note that the interface with an id declares a signature. -/
def add (typeId : Nat) (slots : List InterfaceSlot) (s : Signature) : List InterfaceSlot :=
  match slots with
  | [] => [⟨s, [typeId]⟩]
  | slot :: rest =>
    if slot.signature = s then
      { slot with declaredBy :=
          if slot.declaredBy.contains typeId then slot.declaredBy
          else slot.declaredBy ++ [typeId] } :: rest
    else slot :: add typeId rest s

end InterfaceSlot

namespace Layout

/-- The numbers of the units' types in the graph. -/
def typeIds (g : Graph) : List CompilationUnit → Except Error (List TypeId)
  | [] => .ok []
  | u :: us =>
    match g.find? u.qualifiedName with
    | none => .error (.internal (.missingType u.qualifiedName))
    | some id =>
      match typeIds g us with
      | .error e => .error e
      | .ok ids => .ok (id :: ids)

/-- The layouts of the classes among the given types, which start at the type
id `typeId` and the class id `classId`. -/
def classLayouts (g : Graph) (memo : VtableMemo) (typeId classId : Nat) :
    List TypeId → Except Error (List ClassLayout)
  | [] => .ok []
  | id :: ids =>
    if (g.node id).isClass then
      match g.vtableOf (g.nodes.length + 1) memo [] id with
      | .error met => .error (.internal (.cyclicSuperclasses (g.node met).name))
      | .ok (vtable, memo) =>
        match classLayouts g memo (typeId + 1) (classId + 1) ids with
        | .error e => .error e
        | .ok rest => .ok (⟨(g.node id).name, classId, typeId, vtable⟩ :: rest)
    else classLayouts g memo (typeId + 1) classId ids

/-- The columns for the interface methods, in the order of their first
declaration. -/
def interfaceColumns (g : Graph) (ids : List TypeId) : List InterfaceSlot :=
  (ids.zipIdx.filter fun p => (g.node p.1).isInterface).foldl
    (fun slots p => ((g.node p.1).methods.map (·.signature)).foldl (InterfaceSlot.add p.2) slots) []

/-- Which of the types are among `supertypes`. Of equal types the last counts. -/
def subtypeRow (supertypes : List TypeId) : List TypeId → List Bool
  | [] => []
  | id :: ids => (supertypes.contains id && !ids.contains id) :: subtypeRow supertypes ids

/-- The routine that a class has for an interface method: its vtable's, if the
class is a subtype of an interface that declares the method. -/
def selectorCell (subtypes : List Bool) (c : ClassLayout) (slot : InterfaceSlot) : Option String :=
  if slot.declaredBy.any fun i => (subtypes[i]?).getD false then
    (c.vtable.find? fun e => e.signature = slot.signature && !e.isAbstract).map (·.label)
  else none

/-- The layout of the types that the units declare. -/
def ofGraph (g : Graph) (us : List CompilationUnit) : Except Error Layout :=
  match typeIds g us with
  | .error e => .error e
  | .ok ids =>
    match classLayouts g [] 0 0 ids with
    | .error e => .error e
    | .ok classes =>
      let columns := interfaceColumns g ids
      let subtypes := ids.map fun id => subtypeRow (g.supertypes id) ids
      .ok {
        types := ids.map fun id => (g.node id).name
        classes := classes
        interfaceSlots := columns
        subtypes := subtypes
        selector := classes.map fun c =>
          columns.map (selectorCell ((subtypes[c.typeId]?).getD []) c) }

end Layout
end ClassCompiler
