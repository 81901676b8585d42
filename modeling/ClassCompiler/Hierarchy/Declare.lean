import ClassCompiler.Error
import ClassCompiler.Hierarchy.Graph
import ClassCompiler.Text.Blank

/-!
# Declaring types

`Graph.declare` enters the type of a unit into the graph. Its parents are
looked up as the unit sees them: an exact name first, then the imports of one
type, the imports on demand, and the unit's own package; a name that leads
nowhere becomes a placeholder. A placeholder under the simple name of the type
that is now declared is folded into it if every type that mentioned it could
have meant the new one.

A declaration that fails leaves in the graph what it had entered by then, and
the graph after it is part of every answer here.

Key definitions: `Graph.resolve`, `Graph.link`, `Graph.fold`, `Graph.declare`,
`Graph.ofUnits`.
-/

namespace ClassCompiler

/-- How a type names a parent. -/
inductive Relation where
  | extending
  | implementing
deriving DecidableEq

/-- The parents that a declaration names, in order. -/
def TypeDecl.parents : TypeDecl → List (Relation × String)
  | .ofClass c =>
    c.superclass.toList.map (fun t => (.extending, t.name)) ++
      c.interfaces.map fun t => (.implementing, t.name)
  | .ofInterface i => i.parents.map fun t => (.extending, t.name)

def TypeDecl.kind : TypeDecl → TypeKind
  | .ofClass _ => .ofClass
  | .ofInterface _ => .ofInterface

def TypeDecl.methods (owner : String) : TypeDecl → List Method
  | .ofClass c => c.methods.map (Method.ofDecl owner)
  | .ofInterface i => i.methods.map (Method.ofDecl owner)

def TypeDecl.constructors (owner : String) : TypeDecl → List Method
  | .ofClass c => c.constructors.map (Method.ofConstructor owner)
  | .ofInterface _ => []

namespace TypeNode

/-- Whether an import or its own package lets a type use the simple name of the
type `qualified` of `package`. -/
def sees (n : TypeNode) (package qualified : String) : Bool :=
  n.package == package ||
    n.imports.any fun i => if i.onDemand then i.name == package else i.name == qualified

/-- The qualified name that an import of one type gives a simple name. -/
def importedName? (n : TypeNode) (name : String) : Option String :=
  (n.imports.find? fun i => !i.onDemand && i.simpleName == name).map (·.name)

/-- The parents of a type with `old` replaced by `new`. -/
def redirect (old new : TypeId) (n : TypeNode) : TypeNode :=
  { n with
    extended := n.extended.map fun id => if id = old then new else id
    implemented := n.implemented.map fun id => if id = old then new else id }

def addParent (relation : Relation) (parent : TypeId) (n : TypeNode) : TypeNode :=
  match relation with
  | .extending => { n with extended := n.extended ++ [parent] }
  | .implementing => { n with implemented := n.implemented ++ [parent] }

def addChild (child : TypeId) (n : TypeNode) : TypeNode :=
  { n with children := n.children ++ [child] }

end TypeNode

namespace Graph

def modify (g : Graph) (id : TypeId) (f : TypeNode → TypeNode) : Graph :=
  { g with nodes := g.nodes.modify id f }

theorem node_modify (g : Graph) (id other : TypeId) (f : TypeNode → TypeNode)
    (h : id < g.nodes.length) :
    (g.modify id f).node other = if other = id then f (g.node id) else g.node other := by
  simp only [node, modify, List.getD_eq_getElem?_getD, List.getElem?_modify]
  by_cases ho : other = id
  · subst ho
    simp [h]
  · simp [ho, Ne.symm ho]

/-- A type that nobody has mentioned before. -/
def addPlaceholder (g : Graph) (name : String) : Graph :=
  ⟨g.nodes ++ [.placeholder name], (name, g.nodes.length) :: g.index⟩

/-- The number of the type with a name, a new placeholder if there is none. -/
def fetch (g : Graph) (name : String) : Graph × TypeId :=
  match g.find? name with
  | some id => (g, id)
  | none => (g.addPlaceholder name, g.nodes.length)

theorem find?_fetch (g : Graph) (name : String) :
    (g.fetch name).1.find? name = some (g.fetch name).2 := by
  unfold fetch
  split
  · assumption
  · simp [addPlaceholder, find?]

/-- The type that a simple name leads to through the imports on demand. -/
def findOnDemand? (g : Graph) (n : TypeNode) (name : String) : Option TypeId :=
  (n.imports.filter (·.onDemand)).findSome? fun i => g.find? (Text.qualify i.name name)

/-- The type that `name` means to the type `child`. -/
def resolve (g : Graph) (child : TypeId) (name : String) : Graph × TypeId :=
  match g.find? name with
  | some id => (g, id)
  | none =>
    if Text.isDotted name then g.fetch name
    else
      match (g.node child).importedName? name with
      | some qualified => g.fetch qualified
      | none =>
        match g.findOnDemand? (g.node child) name with
        | some id => (g, id)
        | none =>
          match g.find? (Text.qualify (g.node child).package name) with
          | some id => (g, id)
          | none => g.fetch name

/-- Enter `parent` as a parent of `child`, and the edge back. -/
def connect (g : Graph) (child parent : TypeId) (relation : Relation) : Graph :=
  (g.modify parent (.addChild child)).modify child (.addParent relation parent)

/-- Enter the parent that `child` names. No parent may be named twice. -/
def link (g : Graph) (child : TypeId) (relation : Relation) (name : String) :
    Except Violation Graph :=
  let (g', parent) := g.resolve child name
  if (g'.node child).parents.contains parent then
    .error (.duplicateParent (g'.node child).name name)
  else .ok (g'.connect child parent relation)

/-- Enter the named parents in order, up to the first that cannot be entered. -/
def linkAll (g : Graph) (child : TypeId) : List (Relation × String) → Graph × Except Violation Unit
  | [] => (g, .ok ())
  | (relation, name) :: rest =>
    match g.link child relation name with
    | .error v => (g, .error v)
    | .ok g' => g'.linkAll child rest

/-- Give the children of the placeholder `old` to `new`, up to the first that
has `new` as a parent already. -/
def adopt (g : Graph) (old new : TypeId) : List TypeId → Graph × Except Violation Unit
  | [] => (g, .ok ())
  | c :: cs =>
    if (g.node c).parents.contains new then
      (g, .error (.duplicateParent (g.node c).name (g.node new).name))
    else ((g.modify c (.redirect old new)).modify new (.addChild c)).adopt old new cs

/-- Take a placeholder out of the graph in favour of a declared type. -/
def retire (g : Graph) (old new : TypeId) : Graph :=
  { g.modify old (fun n => { n with retiredInto := some new }) with
    index := g.index.filter fun entry => entry.1 != (g.node old).name }

/-- The placeholder that stands for a declared type under its simple name:
there is one if the type is in a package and every type that mentioned the
simple name sees the declared type. -/
def standIn? (g : Graph) (declared : TypeId) : Option TypeId :=
  let n := g.node declared
  if n.name = n.identifier then none
  else
    (g.find? n.identifier).filter fun id =>
      let p := g.node id
      p.isPlaceholder && !p.children.isEmpty &&
        p.children.all fun c => (g.node c).sees n.package n.name

/-- Fold the placeholder that stands for a declared type into it. -/
def fold (g : Graph) (declared : TypeId) : Graph × Except Violation Unit :=
  match g.standIn? declared with
  | none => (g, .ok ())
  | some old =>
    let children := (g.node old).children
    match (g.modify old fun n => { n with children := [] }).adopt old declared children with
    | (g', .error v) => (g', .error v)
    | (g', .ok ()) => (g'.retire old declared, .ok ())

/-- Turn a placeholder into the declared type of a unit, without parents and
methods. -/
def describe (u : CompilationUnit) (n : TypeNode) : TypeNode :=
  { n with
    identifier := u.decl.name
    package := u.packageName
    imports := u.imports
    modifiers := Modifier.setOf u.decl.modifiers
    kind := some u.decl.kind }

/-- Enter the parents and then the methods of a declared type. -/
def populate (g : Graph) (id : TypeId) (decl : TypeDecl) : Graph × Except Violation Unit :=
  match g.linkAll id decl.parents with
  | (g', .error v) => (g', .error v)
  | (g', .ok ()) =>
    let owner := (g.node id).name
    (g'.modify id fun n =>
      { n with methods := decl.methods owner, constructors := decl.constructors owner }, .ok ())

/-- Enter the type that a unit declares. -/
def declare (g : Graph) (u : CompilationUnit) : Graph × Except Error TypeId :=
  if Text.isBlank u.decl.name then (g, .error (.internal .unnamedType))
  else
    let (g₁, id) := g.fetch u.qualifiedName
    if !(g₁.node id).isPlaceholder then
      (g₁, .error (.hierarchy (.duplicateType u.qualifiedName)))
    else
      match (g₁.modify id (describe u)).fold id with
      | (g₂, .error v) => (g₂, .error (.hierarchy v))
      | (g₂, .ok ()) =>
        match g₂.populate id u.decl with
        | (g₃, .error v) => (g₃, .error (.hierarchy v))
        | (g₃, .ok ()) => (g₃, .ok id)

/-- Enter the types of units in order, up to the first that cannot be entered. -/
def declareAll (g : Graph) : List CompilationUnit → Graph × Except Error Unit
  | [] => (g, .ok ())
  | u :: us =>
    match g.declare u with
    | (g', .error e) => (g', .error e)
    | (g', .ok _) => g'.declareAll us

/-- The graph of a whole program. -/
def ofUnits (us : List CompilationUnit) : Except Error Graph :=
  match empty.declareAll us with
  | (_, .error e) => .error e
  | (g, .ok ()) => .ok g

end Graph
end ClassCompiler
