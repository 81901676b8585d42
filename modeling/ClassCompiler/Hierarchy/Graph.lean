import ClassCompiler.Member.Signature

/-!
# The hierarchy graph

All types that a program declares or mentions, numbered in the order in which
they came up. A type that has only been mentioned as a parent is a placeholder:
it has no kind. A placeholder that turned out to mean a type of another name is
retired: it stays in its place, so that numbers never change, but is no longer
live. The index finds the live types by name.

Edges run both ways: from a type to its parents, apart for those it extends
and those it implements, and from a parent to its children.

Key definitions: `TypeNode`, `Graph`, `Graph.find?`, `Graph.ids`,
`Graph.superclass?`, `Graph.ascend`, `Graph.supertypes`.
-/

namespace ClassCompiler

inductive TypeKind where
  | ofClass
  | ofInterface
deriving DecidableEq

/-- The number of a type in a graph. -/
abbrev TypeId := Nat

structure TypeNode where
  name : String
  identifier : String
  package : String
  kind : Option TypeKind
  modifiers : List Modifier
  methods : List Method
  constructors : List Method
  extended : List TypeId
  implemented : List TypeId
  children : List TypeId
  imports : List ImportDecl
  retiredInto : Option TypeId

namespace TypeNode

/-- A type that has been mentioned and not declared. -/
def placeholder (name : String) : TypeNode where
  name := name
  identifier := Text.lastSegment name
  package := ""
  kind := none
  modifiers := []
  methods := []
  constructors := []
  extended := []
  implemented := []
  children := []
  imports := []
  retiredInto := none

instance : Inhabited TypeNode := ⟨.placeholder ""⟩

def isPlaceholder (n : TypeNode) : Bool := n.kind.isNone

def isClass (n : TypeNode) : Bool := n.kind == some .ofClass

def isInterface (n : TypeNode) : Bool := n.kind == some .ofInterface

def isFinal (n : TypeNode) : Bool := n.modifiers.contains .isFinal

def isAbstract (n : TypeNode) : Bool := n.modifiers.contains .isAbstract

def isLive (n : TypeNode) : Bool := n.retiredInto.isNone

/-- The types it extends, then those it implements. -/
def parents (n : TypeNode) : List TypeId := n.extended ++ n.implemented

end TypeNode

structure Graph where
  nodes : List TypeNode
  index : List (String × TypeId)

namespace Graph

def empty : Graph := ⟨[], []⟩

instance : Inhabited Graph := ⟨.empty⟩

/-- The type with a number. A number that no type has stands for a nameless
placeholder, so that edges can be followed without a proof. -/
def node (g : Graph) (id : TypeId) : TypeNode :=
  g.nodes.getD id default

/-- The number of the live type with a name. -/
def find? (g : Graph) (name : String) : Option TypeId :=
  g.index.lookup name

/-- The numbers of the live types in order. -/
def ids (g : Graph) : List TypeId :=
  (List.range g.nodes.length).filter fun id => (g.node id).isLive

/-- How many types are live. -/
def size (g : Graph) : Nat := g.ids.length

/-- The live types that have been mentioned and not declared. -/
def placeholders (g : Graph) : List TypeId :=
  g.ids.filter fun id => (g.node id).isPlaceholder

/-- The type that a class extends; other types have none. -/
def superclass? (g : Graph) (id : TypeId) : Option TypeId :=
  if (g.node id).isClass then (g.node id).extended.head? else none

/-- The types that are not among `seen`. -/
def unseen (g : Graph) (seen : List TypeId) : List TypeId :=
  (List.range g.nodes.length).filter fun id => !seen.contains id

theorem unseen_cons (g : Graph) (seen : List TypeId) (id : TypeId) :
    g.unseen (id :: seen) = (g.unseen seen).filter fun other => other != id := by
  simp only [unseen, List.filter_filter, List.contains_cons, Bool.not_or, bne]

/-- The types `seen`, and all that can be reached over parents from those that
wait. A type may wait more than once, and a cycle leads back to types that have
been seen; but a type is new only once, and only then its parents join those
that wait. -/
def ascend (g : Graph) (seen : List TypeId) : List TypeId → List TypeId
  | [] => seen
  | id :: waiting =>
    if seen.contains id then g.ascend seen waiting
    else g.ascend (id :: seen) ((g.node id).parents ++ waiting)
termination_by waiting => ((g.unseen seen).length, waiting.length)
decreasing_by
  · exact Prod.Lex.right _ (Nat.lt_succ_self _)
  · rename_i hs
    rw [unseen_cons]
    rcases Nat.lt_or_ge id g.nodes.length with hlt | hge
    · refine Prod.Lex.left _ _ (List.length_filter_lt_length_iff_exists.mpr ⟨id, ?_, by simp⟩)
      simpa [unseen, hlt] using hs
    · -- a number that no type has leads nowhere
      refine Prod.Lex.right' _ (List.length_filter_le ..) ?_
      simp [node, List.getD_eq_getElem?_getD, hge, default, TypeNode.parents, TypeNode.placeholder]

/-- Every type that can be reached over parents, the type itself included. -/
def supertypes (g : Graph) (id : TypeId) : List TypeId :=
  g.ascend [] [id]

end Graph
end ClassCompiler
