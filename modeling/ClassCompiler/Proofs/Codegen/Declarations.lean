import ClassCompiler.Codegen.Unit
import ClassCompiler.Proofs.Source.Walks

/-!
# The code of declarations without the pass

The pass that generates code goes into units and classes and declines all else,
so it works along the events of a walk that skips the inside of every other
node. What comes of it can be said without the walk: a head, the code of the
members in order, and the vtable. In particular no unit leads the pass to a node
that only means something inside a routine.

Key definitions: `ClassDecl.emit`, `TypeDecl.emit`.

Key theorems: `Node.emit_eq_walk`, `Node.emit_eq`, `CompilationUnit.emit_eq`.
-/

namespace ClassCompiler

open Emit

/-- The code of a class that is named `name` with its package. -/
def ClassDecl.emit (layout : Layout) (name : String) (c : ClassDecl) : Emit Unit := do
  each (Member.emit name) c.members
  layout.emitVtable name

def TypeDecl.emit (layout : Layout) (name : String) : TypeDecl → Emit Unit
  | .ofClass c => c.emit layout name
  | .ofInterface _ => InterfaceDecl.emit

namespace Layout

variable (layout : Layout) {name : String}

/-- What is generated at an event of the pass. -/
def emitEvent : Tree.Event → StateT String Emit Unit
  | .enter n => emitEnter n
  | .leave n => layout.emitLeave n

theorem traverse_generator (t : Tree) :
    t.traverse layout.generator =
      forM (t.trail fun n => !n.holdsDeclarations) layout.emitEvent := by
  refine Tree.traverse_eq_forM (fun n => ?_) (fun _ => rfl) t
  rw [Bool.not_not]
  rfl

/-- On leaving a node that the pass declines nothing is generated. -/
theorem emitLeave_of_declined {n : Node} (h : n.holdsDeclarations = false) :
    layout.emitLeave n = pure () := by
  cases n with
  | ofClass c => cases h
  | _ => rfl

theorem traverse_of_declined {t : Tree} (h : t.node.holdsDeclarations = false) :
    t.traverse layout.generator = emitEnter t.node := by
  obtain ⟨n, ts⟩ := t
  have hn : n.holdsDeclarations = false := h
  simp [traverse_generator, Tree.trail, hn, emitEvent, layout.emitLeave_of_declined hn, Tree.node]

theorem traverseAll_append (ts ts' : List Tree) :
    Tree.traverseAll layout.generator (ts ++ ts') =
      Tree.traverseAll layout.generator ts >>= fun _ => Tree.traverseAll layout.generator ts' := by
  induction ts with
  | nil => exact (pure_bind ..).symm
  | cons t ts ih => rw [List.cons_append, Tree.traverseAll, Tree.traverseAll, ih, bind_assoc]

/-- Packages, imports and parents have no code. -/
theorem traverseAll_of_silent {ts : List Tree}
    (h : ∀ t ∈ ts, t.node.holdsDeclarations = false ∧ emitEnter t.node = pure ()) :
    Tree.traverseAll layout.generator ts = pure () := by
  induction ts with
  | nil => rfl
  | cons t ts ih =>
    obtain ⟨⟨hdeclined, hsilent⟩, hts⟩ := List.forall_mem_cons.mp h
    rw [Tree.traverseAll, layout.traverse_of_declined hdeclined, hsilent, pure_bind, ih hts]

theorem run_traverse_member (m : Member) :
    (m.tree.traverse layout.generator).run name = m.emit name >>= fun _ => pure ((), name) := by
  cases m with
  | field | method | ctor =>
    rw [layout.traverse_of_declined rfl]
    rfl

theorem run_traverseAll_members (ms : List Member) :
    (Tree.traverseAll layout.generator (ms.map (·.tree))).run name =
      each (Member.emit name) ms >>= fun _ => pure ((), name) := by
  induction ms with
  | nil => rfl
  | cons m ms ih =>
    rw [List.map_cons, Tree.traverseAll, StateT.run_bind, run_traverse_member, bind_assoc, each,
      bind_assoc]
    congr 1
    funext _
    rw [pure_bind]
    exact ih

theorem run_traverse_class (c : ClassDecl) :
    (c.tree.traverse layout.generator).run name =
      c.emit layout name >>= fun _ => pure ((), name) := by
  have hparents : Tree.traverseAll layout.generator
      (c.superclass.toList.map (·.tree) ++ c.interfaces.map (·.tree)) = pure () := by
    refine layout.traverseAll_of_silent fun t ht => ?_
    rw [← List.map_append] at ht
    obtain ⟨parent, -, rfl⟩ := List.mem_map.mp ht
    exact ⟨rfl, rfl⟩
  have hopen : c.tree.traverse layout.generator =
      Tree.traverseAll layout.generator (c.members.map (·.tree)) >>= fun _ =>
        layout.emitLeave (.ofClass c) := by
    rw [ClassDecl.tree, Tree.traverse, traverseAll_append, hparents, pure_bind]
    rfl
  rw [hopen, StateT.run_bind, run_traverseAll_members, ClassDecl.emit, bind_assoc, bind_assoc]
  congr 1

theorem run_traverse_decl (d : TypeDecl) :
    (d.tree.traverse layout.generator).run name =
      d.emit layout name >>= fun _ => pure ((), name) := by
  cases d with
  | ofClass c => exact layout.run_traverse_class c
  | ofInterface i =>
    rw [layout.traverse_of_declined rfl]
    rfl

theorem run_traverse_unit (u : CompilationUnit) :
    (u.tree.traverse layout.generator).run name = (do
      lines [.header u.qualifiedName, .segment ".text"]
      u.decl.emit layout u.qualifiedName
      pure ((), u.qualifiedName)) := by
  have hhead : Tree.traverseAll layout.generator (u.package.toList.map (.leaf <| .package ·) ++
      u.imports.map (.leaf <| .importDecl ·)) = pure () := by
    refine layout.traverseAll_of_silent fun t ht => ?_
    rcases List.mem_append.mp ht with ht | ht
    · obtain ⟨_, -, rfl⟩ := List.mem_map.mp ht
      exact ⟨rfl, rfl⟩
    · obtain ⟨_, -, rfl⟩ := List.mem_map.mp ht
      exact ⟨rfl, rfl⟩
  have hopen : u.tree.traverse layout.generator =
      emitEnter (.unit u) >>= fun _ => u.decl.tree.traverse layout.generator := by
    rw [CompilationUnit.tree, Tree.traverse, traverseAll_append, hhead, pure_bind,
      Tree.traverseAll, Tree.traverseAll]
    simp [generator, Node.holdsDeclarations, emitLeave]
  have henter : (emitEnter (.unit u)).run name =
      lines [.header u.qualifiedName, .segment ".text"] >>= fun _ => pure ((), u.qualifiedName) := rfl
  rw [hopen, StateT.run_bind, henter, bind_assoc]
  congr 1
  funext _
  rw [pure_bind]
  exact layout.run_traverse_decl u.decl

end Layout

/-- Generation works along the events of a walk that goes into units and classes. -/
theorem Node.emit_eq_walk (layout : Layout) (n : Node) :
    n.emit layout = Prod.fst <$> (forM (n.tree.walk fun m =>
      if m.holdsDeclarations then .descend else .skip).events layout.emitEvent).run "" := by
  have hvisit : ∀ m : Node, (if m.holdsDeclarations then Tree.Visit.descend else .skip) =
      if !m.holdsDeclarations then .skip else .descend := by
    intro m
    cases m.holdsDeclarations <;> rfl
  rw [Node.emit, layout.traverse_generator, Tree.walk_eq_trail _ hvisit]

/-- A node that the pass declines is only entered. -/
theorem Node.emit_of_declined (layout : Layout) {n : Node} (h : n.holdsDeclarations = false) :
    n.emit layout = Prod.fst <$> (Layout.emitEnter n).run "" := by
  have hdeclined : n.tree.node.holdsDeclarations = false := by rwa [n.node_tree]
  rw [Node.emit, layout.traverse_of_declined hdeclined, n.node_tree]

theorem CompilationUnit.emit_eq (layout : Layout) (u : CompilationUnit) : u.emit layout = (do
    lines [.header u.qualifiedName, .segment ".text"]
    u.decl.emit layout u.qualifiedName) := by
  show Prod.fst <$> (u.tree.traverse layout.generator).run "" = _
  rw [layout.run_traverse_unit]
  simp

/-- What the pass comes to at each kind of node: away from a unit a class has no
name, and inside a routine there is nothing to declare. -/
theorem Node.emit_eq (layout : Layout) (n : Node) : n.emit layout =
    match n with
    | .unit u => u.emit layout
    | .package _ | .importDecl _ | .typeRef _ => pure ()
    | .ofClass c => c.emit layout ""
    | .ofInterface _ => InterfaceDecl.emit
    | .field f => f.emit
    | .method m => m.emit ""
    | .ctor k => k.emit ""
    | n => fail (.internal (.outsideRoutine n.kind n.span)) := by
  cases n with
  | unit u => rfl
  | ofClass c =>
    show Prod.fst <$> (c.tree.traverse layout.generator).run "" = _
    rw [layout.run_traverse_class]
    simp
  | field f | method m | ctor k | ofInterface i =>
    rw [Node.emit_of_declined layout rfl]
    simp [Layout.emitEnter, Member.emit]
  | _ =>
    rw [Node.emit_of_declined layout rfl]
    rfl

end ClassCompiler
