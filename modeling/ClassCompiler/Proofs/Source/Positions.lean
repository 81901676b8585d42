import ClassCompiler.Proofs.Source.Walks
import Mathlib.Data.List.Nodup

/-!
# Positions in a node

The syntax stores the parts of a node in roles: a branch has a condition, a
first part and perhaps another, a call has a target and arguments. A position is
the way from a node down to something stored in it, role by role and, within a
role, by number. Two parts that are written alike have different positions.

The children of a node are its parts in all roles, in the order of `Role.all`,
which agrees with the source text of each construct. A walk that goes everywhere
therefore comes to each position once.

Key definitions: `Role`, `Node.inRole`, `Node.parts`, `Node.Position`, `Node.at?`,
`Node.events`, `Node.Covers`.

Key theorems: `Node.tree_eq`, `Node.children_eq`, `Node.exists_covers`, `Node.walk_covers`.
-/

namespace ClassCompiler

/-! ### Parts and their roles -/

/-- What a part is to the node that it is stored in. -/
inductive Role where
  | package | imports | decl
  | superclass | interfaces | members | parents | methods
  | returnType | parameters | init | condition | update | thenPart | elsePart | body
  | statements | expression | object | type | initializer
  | target | array | index | left | right | operand | arguments | size | value
deriving DecidableEq

/-- The roles in an order that agrees with the source text of each construct. -/
def Role.all : List Role :=
  [.package, .imports, .decl, .superclass, .interfaces, .members, .parents, .methods,
    .returnType, .parameters, .init, .condition, .update, .thenPart, .elsePart, .body,
    .statements, .expression, .object, .type, .initializer,
    .target, .array, .index, .left, .right, .operand, .arguments, .size, .value]

theorem Role.mem_all (r : Role) : r ∈ all := by
  cases r <;> decide

theorem Role.nodup_all : all.Nodup := by decide

def Expr.inRole : Expr → Role → List Node
  | .binary left _ _ _, .left => [.expr left]
  | .binary _ _ right _, .right => [.expr right]
  | .unary _ operand _, .operand => [.expr operand]
  | .assign target _ _, .target => [.expr target]
  | .assign _ value _, .value => [.expr value]
  | .call target _ _ _, .target => target.toList.map .expr
  | .call _ _ arguments _, .arguments => arguments.map .expr
  | .field target _ _, .target => [.expr target]
  | .element array _ _, .array => [.expr array]
  | .element _ index _, .index => [.expr index]
  | .cast type _ _, .type => [.typeRef type]
  | .cast _ operand _, .operand => [.expr operand]
  | .instanceOf operand _ _, .object => [.expr operand]
  | .instanceOf _ type _, .type => [.typeRef type]
  | .new type _ _, .type => [.typeRef type]
  | .new _ arguments _, .arguments => arguments.map .expr
  | .newArray type _ _, .type => [.typeRef type]
  | .newArray _ size _, .size => [.expr size]
  | _, _ => []

def Stmt.inRole : Stmt → Role → List Node
  | .expr e _, .expression => [.expr e]
  | .localVar type _ _ _, .type => [.typeRef type]
  | .localVar _ _ initializer _, .initializer => [.expr initializer]
  | .branch condition _ _ _, .condition => [.expr condition]
  | .branch _ thenPart _ _, .thenPart => [.stmt thenPart]
  | .branch _ _ elsePart _, .elsePart => elsePart.toList.map .stmt
  | .whileLoop condition _ _, .condition => [.expr condition]
  | .whileLoop _ body _, .body => [.stmt body]
  | .forLoop init _ _ _ _, .init => init.toList.map .stmt
  | .forLoop _ condition _ _ _, .condition => condition.toList.map .expr
  | .forLoop _ _ update _ _, .update => update.toList.map .expr
  | .forLoop _ _ _ body _, .body => [.stmt body]
  | .ret value _, .value => value.toList.map .expr
  | .block statements _, .statements => statements.map .stmt
  | _, _ => []

def Member.node : Member → Node
  | .field f => .field f
  | .method m => .method m
  | .ctor k => .ctor k

def TypeDecl.node : TypeDecl → Node
  | .ofClass c => .ofClass c
  | .ofInterface i => .ofInterface i

namespace Node

/-- What a node stores in a role, in order. -/
def inRole : Node → Role → List Node
  | .unit u, .package => u.package.toList.map .package
  | .unit u, .imports => u.imports.map .importDecl
  | .unit u, .decl => [u.decl.node]
  | .ofClass c, .superclass => c.superclass.toList.map .typeRef
  | .ofClass c, .interfaces => c.interfaces.map .typeRef
  | .ofClass c, .members => c.members.map Member.node
  | .ofInterface i, .parents => i.parents.map .typeRef
  | .ofInterface i, .methods => i.methods.map .method
  | .field f, .type => [.typeRef f.type]
  | .field f, .initializer => f.initializer.toList.map .expr
  | .method m, .returnType => m.returnType.toList.map .typeRef
  | .method m, .parameters => m.parameters.map .parameter
  | .method m, .body => m.body.toList.map .block
  | .ctor k, .parameters => k.parameters.map .parameter
  | .ctor k, .body => [.block k.body]
  | .parameter p, .type => [.typeRef p.type]
  | .block b, .statements => b.statements.map .stmt
  | .stmt s, role => s.inRole role
  | .expr e, role => e.inRole role
  | _, _ => []

/-- All that a node stores. -/
def parts (n : Node) : List Node := Role.all.flatMap n.inRole

end Node

/-! ### The tree of a node is made of the trees of its parts -/

theorem Expr.trees_eq (es : List Expr) : Expr.trees es = es.map Expr.tree := by
  induction es with
  | nil => rfl
  | cons e es ih => rw [Expr.trees, ih, List.map_cons]

theorem Expr.treesOption_eq (o : Option Expr) : Expr.treesOption o = o.toList.map Expr.tree := by
  cases o <;> rfl

theorem Stmt.trees_eq (ss : List Stmt) : Stmt.trees ss = ss.map Stmt.tree := by
  induction ss with
  | nil => rfl
  | cons s ss ih => rw [Stmt.trees, ih, List.map_cons]

theorem Stmt.treesOption_eq (o : Option Stmt) : Stmt.treesOption o = o.toList.map Stmt.tree := by
  cases o <;> rfl

namespace Node

@[simp] theorem tree_package (p : PackageDecl) : (package p).tree = .leaf (.package p) := rfl

@[simp] theorem tree_importDecl (i : ImportDecl) : (importDecl i).tree = .leaf (.importDecl i) := rfl

@[simp] theorem tree_typeRef (t : TypeRef) : (typeRef t).tree = t.tree := rfl

@[simp] theorem tree_method (m : MethodDecl) : (method m).tree = m.tree := rfl

@[simp] theorem tree_parameter (p : Parameter) : (parameter p).tree = p.tree := rfl

@[simp] theorem tree_block (b : Block) : (block b).tree = b.tree := rfl

@[simp] theorem tree_stmt (s : Stmt) : (stmt s).tree = s.tree := rfl

@[simp] theorem tree_expr (e : Expr) : (expr e).tree = e.tree := rfl

@[simp] theorem tree_member (m : Member) : m.node.tree = m.tree := by
  cases m <;> rfl

@[simp] theorem tree_decl (d : TypeDecl) : d.node.tree = d.tree := by
  cases d <;> rfl

end Node

theorem Expr.tree_eq (e : Expr) :
    e.tree = .branch (.expr e) ((Node.expr e).parts.map Node.tree) := by
  cases e with
  | call target ident arguments span =>
    have hparts : (Node.expr (.call target ident arguments span)).parts =
        target.toList.map .expr ++ (arguments.map .expr ++ []) := rfl
    simp [hparts, Expr.tree, Expr.treesOption_eq, Expr.trees_eq, Function.comp_def]
  | new type arguments span =>
    have hparts : (Node.expr (.new type arguments span)).parts =
        .typeRef type :: (arguments.map .expr ++ []) := rfl
    simp [hparts, Expr.tree, Expr.trees_eq, Function.comp_def]
  | _ => rfl

theorem Stmt.tree_eq (s : Stmt) :
    s.tree = .branch (.stmt s) ((Node.stmt s).parts.map Node.tree) := by
  cases s with
  | branch condition thenPart elsePart span =>
    have hparts : (Node.stmt (.branch condition thenPart elsePart span)).parts =
        .expr condition :: .stmt thenPart :: (elsePart.toList.map .stmt ++ []) := rfl
    simp [hparts, Stmt.tree, Stmt.treesOption_eq, Function.comp_def]
  | forLoop init condition update body span =>
    have hparts : (Node.stmt (.forLoop init condition update body span)).parts =
        init.toList.map .stmt ++ (condition.toList.map .expr ++
          (update.toList.map .expr ++ [.stmt body])) := rfl
    simp [hparts, Stmt.tree, Stmt.treesOption_eq, Expr.treesOption_eq, Function.comp_def]
  | ret value span =>
    have hparts : (Node.stmt (.ret value span)).parts = value.toList.map .expr ++ [] := rfl
    simp [hparts, Stmt.tree, Expr.treesOption_eq, Function.comp_def]
  | block statements span =>
    have hparts : (Node.stmt (.block statements span)).parts = statements.map .stmt ++ [] := rfl
    simp [hparts, Stmt.tree, Stmt.trees_eq, Function.comp_def]
  | _ => rfl

namespace Node

/-- The tree of a node is made of the trees of its parts. -/
theorem tree_eq (n : Node) : n.tree = .branch n (n.parts.map tree) := by
  cases n with
  | unit u =>
    have hparts : (unit u).parts =
        u.package.toList.map .package ++ (u.imports.map .importDecl ++ [u.decl.node]) := rfl
    have htree : (unit u).tree = u.tree := rfl
    simp [hparts, htree, CompilationUnit.tree, Function.comp_def]
  | ofClass c =>
    have hparts : (ofClass c).parts = c.superclass.toList.map .typeRef ++
        (c.interfaces.map .typeRef ++ (c.members.map Member.node ++ [])) := rfl
    have htree : (ofClass c).tree = c.tree := rfl
    simp [hparts, htree, ClassDecl.tree, Function.comp_def]
  | ofInterface i =>
    have hparts : (ofInterface i).parts =
        i.parents.map .typeRef ++ (i.methods.map .method ++ []) := rfl
    have htree : (ofInterface i).tree = i.tree := rfl
    simp [hparts, htree, InterfaceDecl.tree, Function.comp_def]
  | field f =>
    have hparts : (field f).parts = .typeRef f.type :: (f.initializer.toList.map .expr ++ []) := rfl
    have htree : (field f).tree = f.tree := rfl
    simp [hparts, htree, FieldDecl.tree, Expr.treesOption_eq, Function.comp_def]
  | method m =>
    have hparts : (method m).parts = m.returnType.toList.map .typeRef ++
        (m.parameters.map .parameter ++ (m.body.toList.map .block ++ [])) := rfl
    simp [hparts, MethodDecl.tree, Function.comp_def]
  | ctor k =>
    have hparts : (ctor k).parts = k.parameters.map .parameter ++ [.block k.body] := rfl
    have htree : (ctor k).tree = k.tree := rfl
    simp [hparts, htree, ConstructorDecl.tree, Function.comp_def]
  | block b =>
    have hparts : (block b).parts = b.statements.map .stmt ++ [] := rfl
    simp [hparts, Block.tree, Stmt.trees_eq, Function.comp_def]
  | stmt s => exact s.tree_eq
  | expr e => exact e.tree_eq
  | _ => rfl

/-- The children of a node are its parts. -/
theorem children_eq (n : Node) : n.children = n.parts := by
  have hnode : Tree.node ∘ tree = id := funext node_tree
  rw [children, tree_eq, Tree.children, List.map_map, hnode, List.map_id]

/-- What holds of a node if it holds of its parts holds of every node. -/
theorem induction {P : Node → Prop} (h : ∀ n, (∀ m ∈ n.parts, P m) → P n) (n : Node) : P n := by
  induction hk : sizeOf n.tree using Nat.strongRecOn generalizing n with
  | _ k ih =>
    refine h n fun m hm => ih _ ?_ m rfl
    have hlt := List.sizeOf_lt_of_mem (List.mem_map_of_mem (f := tree) hm)
    rw [← hk, n.tree_eq, Tree.branch.sizeOf_spec]
    omega

/-! ### Positions -/

/-- The way from a node to something stored in it, from the outside in: at each
level a role and the number of the part in this role. -/
abbrev Position := List (Role × Nat)

/-- What a node stores in a role under a number. -/
def part? (n : Node) (step : Role × Nat) : Option Node := (n.inRole step.1)[step.2]?

/-- What stands at a position; a node stands at the empty position of itself. -/
def at? : Node → Position → Option Node
  | n, [] => some n
  | n, step :: p => (n.part? step).bind fun m => m.at? p

/-- Where the parts of a node are stored, in the order of the parts. -/
def steps (n : Node) : List (Role × Nat) :=
  Role.all.flatMap fun r => (List.range (n.inRole r).length).map (r, ·)

theorem mem_steps {n : Node} {step : Role × Nat} {m : Node} (h : n.part? step = some m) :
    step ∈ n.steps := by
  obtain ⟨hlt, -⟩ := List.getElem?_eq_some_iff.mp h
  refine List.mem_flatMap.mpr ⟨step.1, step.1.mem_all, ?_⟩
  exact List.mem_map.mpr ⟨step.2, List.mem_range.mpr hlt, rfl⟩

theorem nodup_steps (n : Node) : n.steps.Nodup := by
  refine List.nodup_flatMap.mpr ⟨fun r _ => ?_, Role.nodup_all.imp fun hne => ?_⟩
  · exact List.nodup_range.map fun i j h => (Prod.mk.inj h).2
  · simp only [Function.onFun, List.disjoint_left, List.mem_map]
    rintro _ ⟨i, -, rfl⟩ ⟨j, -, h⟩
    exact hne (Prod.mk.inj h).1.symm

theorem map_part?_steps (n : Node) : n.steps.map n.part? = n.parts.map some := by
  rw [steps, parts, List.map_flatMap, List.map_flatMap]
  congr 1
  funext r
  apply List.ext_getElem?
  intro i
  by_cases hi : i < (n.inRole r).length
  · simp [part?, hi]
  · simp [hi]

/-! ### The walk that goes everywhere -/

/-- What is entered and left on a walk through a node that skips nothing. -/
def events (n : Node) : List Tree.Event := (n.tree.walk fun _ => .descend).events

theorem events_eq_trail (n : Node) : n.events = n.tree.trail fun _ => false := by
  rw [events, Tree.walk_descend]

/-- A node is entered, its parts are walked through in order, and it is left. -/
theorem events_eq (n : Node) :
    n.events = .enter n :: (n.parts.flatMap events ++ [.leave n]) := by
  have hevents : (fun m : Node => m.tree.trail fun _ => false) = events :=
    funext fun m => m.events_eq_trail.symm
  rw [events_eq_trail, tree_eq, Tree.trail, Tree.trailAll_eq, List.flatMap_map, hevents]
  rfl

/-- The positions at which a node stores something: each once, none missing, in
the order in which the walk enters what stands there. -/
structure Covers (n : Node) (ps : List Position) : Prop where
  nodup : ps.Nodup
  complete : ∀ p m, n.at? p = some m → p ∈ ps
  entered : ps.map n.at? = (Tree.Event.entered n.events).map some

/-- The positions below some of the parts of a node, put together from the
positions of the parts. -/
theorem exists_positions {n : Node} : ∀ {steps : List (Role × Nat)} {ms : List Node},
    steps.map n.part? = ms.map some → steps.Nodup → (∀ m ∈ ms, ∃ ps, m.Covers ps) →
    ∃ ps : List Position, ps.Nodup ∧ (∀ p ∈ ps, ∃ step ∈ steps, ∃ q, p = step :: q) ∧
      (∀ step ∈ steps, ∀ q m, n.at? (step :: q) = some m → step :: q ∈ ps) ∧
      ps.map n.at? = (Tree.Event.entered (ms.flatMap events)).map some
  | [], [], _, _, _ => ⟨[], List.nodup_nil, by simp, by simp, rfl⟩
  | step :: steps, m :: ms, hparts, hnodup, hcovers => by
    obtain ⟨hstep, hparts⟩ := List.cons.inj hparts
    obtain ⟨hnew, hnodup⟩ := List.nodup_cons.mp hnodup
    obtain ⟨⟨qs, hqs⟩, hcovers⟩ := List.forall_mem_cons.mp hcovers
    obtain ⟨ps, hps, hfirst, hcomplete, hentered⟩ := exists_positions hparts hnodup hcovers
    have hat : ∀ q, n.at? (step :: q) = m.at? q := by
      intro q
      rw [at?, hstep, Option.bind_some]
    refine ⟨qs.map (step :: ·) ++ ps, ?_, ?_, ?_, ?_⟩
    · refine List.nodup_append.mpr ⟨hqs.nodup.map fun q q' h => (List.cons.inj h).2, hps, ?_⟩
      rintro _ hp p hp' rfl
      obtain ⟨q, -, rfl⟩ := List.mem_map.mp hp
      obtain ⟨step', hstep', q', h⟩ := hfirst _ hp'
      exact hnew ((List.cons.inj h).1 ▸ hstep')
    · intro p hp
      rcases List.mem_append.mp hp with hp | hp
      · obtain ⟨q, -, rfl⟩ := List.mem_map.mp hp
        exact ⟨step, List.mem_cons_self, q, rfl⟩
      · obtain ⟨step', hstep', q, rfl⟩ := hfirst p hp
        exact ⟨step', List.mem_cons_of_mem _ hstep', q, rfl⟩
    · intro step' hstep' q k hk
      rw [List.mem_append]
      rcases List.mem_cons.mp hstep' with rfl | hstep'
      · exact .inl (List.mem_map_of_mem (hqs.complete q k ((hat q).symm.trans hk)))
      · exact .inr (hcomplete step' hstep' q k hk)
    · rw [List.map_append, List.map_map, List.flatMap_cons, Tree.Event.entered_append, List.map_append,
        hentered, ← hqs.entered]
      congr 1
      exact List.map_congr_left fun q _ => hat q
  | [], _ :: _, hparts, _, _ => by cases hparts
  | _ :: _, [], hparts, _, _ => by cases hparts

/-- A walk that goes everywhere enters what stands at each position once. -/
theorem exists_covers (n : Node) : ∃ ps, n.Covers ps := by
  induction n using induction with
  | h n ih =>
    obtain ⟨ps, hps, hfirst, hcomplete, hentered⟩ := exists_positions n.map_part?_steps n.nodup_steps ih
    refine ⟨[] :: ps, List.nodup_cons.mpr ⟨fun h => ?_, hps⟩, ?_, ?_⟩
    · obtain ⟨step, -, q, hq⟩ := hfirst _ h
      cases hq
    · intro p m hm
      cases p with
      | nil => exact List.mem_cons_self
      | cons step q =>
        obtain ⟨k, hk, -⟩ := Option.bind_eq_some_iff.mp hm
        exact List.mem_cons_of_mem _ (hcomplete step (mem_steps hk) q m hm)
    · rw [events_eq, List.map_cons, hentered, Tree.Event.entered_enter, Tree.Event.entered_append,
        List.map_cons]
      simp [at?, Tree.Event.entered]

/-- What is entered and left in a node, without the events strictly between the
enter and the leave of a node of a kind to skip. -/
def eventsOutside (n : Node) (skip : NodeKind → Bool) : List Tree.Event :=
  Tree.Event.prune (fun m => skip m.kind) 0 n.events

theorem eventsOutside_eq (n : Node) (skip : NodeKind → Bool) :
    n.eventsOutside skip = n.tree.trail fun m => skip m.kind := by
  rw [eventsOutside, events_eq_trail, Tree.prune_trail]

/-- A walk that goes everywhere enters all that is stored in a node once, a node
before its children and these in order, and leaves it after them. A walk that
skips some kinds is the same without what is strictly inside the skipped nodes.
If it is to fail at a kind, it ends with the first node of this kind that it
enters. -/
theorem walk_covers (n : Node) :
    (∃ ps, n.Covers ps) ∧
    (∀ m : Node, m.tree.walk (fun _ => .descend) = ⟨m.events, none⟩ ∧
      m.events = .enter m :: (m.children.flatMap events ++ [.leave m])) ∧
    ∀ skip : NodeKind → Bool,
      n.tree.walk (.ofKinds skip none) = ⟨n.eventsOutside skip, none⟩ ∧
      ∀ kind,
        (n.tree.walk (.ofKinds skip (some kind)) = ⟨n.eventsOutside skip, none⟩ ∧
          ∀ m, .enter m ∈ n.eventsOutside skip → m.kind ≠ kind) ∨
        ∃ before m after, n.eventsOutside skip = before ++ .enter m :: after ∧ m.kind = kind ∧
          (∀ b, .enter b ∈ before → b.kind ≠ kind) ∧
          n.tree.walk (.ofKinds skip (some kind)) = ⟨before ++ [.enter m], some m⟩ := by
  refine ⟨n.exists_covers, fun m => ⟨?_, ?_⟩, fun skip => ⟨?_, fun kind => ?_⟩⟩
  · rw [Tree.walk_descend, events_eq_trail]
  · rw [children_eq]
    exact m.events_eq
  · rw [eventsOutside_eq]
    exact Tree.walk_eq_trail _ (fun m => rfl) _
  · rw [eventsOutside_eq, Tree.Visit.ofKinds, Tree.walk_eq]
    have hcases := Tree.Walk.upTo_cases (fun m => some m.kind = some kind)
      (n.tree.trail fun m => skip m.kind)
    simpa only [Option.some.injEq, decide_eq_true_eq, decide_eq_false_iff_not] using hcases

end Node
end ClassCompiler
