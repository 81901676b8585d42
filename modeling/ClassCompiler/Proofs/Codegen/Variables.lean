import ClassCompiler.Proofs.Codegen.Points
import ClassCompiler.Proofs.Codegen.RoutineRuns
import ClassCompiler.Proofs.Source.Parts
import ClassCompiler.Proofs.Source.Positions
import Mathlib.Data.List.Forall2

/-!
# The variables in generated code

Which variable each line of a body's code names, and in which frame, can be read
off the source: a declaration is followed by a store to its own word, a use of a
name by a load or a store of the word that the name has there, and no other line
names a word of memory. The generated lines agree with this one by one
(`Site.Matches`).

So what holds of the frames along the source holds along the code. No two names
share a word in any of them, each declaration takes the next word, and at the end
as many words are taken as a walk through the body counts declarations.

Key definitions: `Block.walkedLocals`, `VariableUse`, `Site`, `Stmt.sites`, `Site.Matches`,
`Frame.Within`.

Key theorems: `Block.walkedLocals_eq`, `TaskCode.sites_match`, `TaskCode.within`,
`TaskCode.declared_eq`, `Routine.variables_have_own_words`.
-/

namespace ClassCompiler

/-! ### Declarations counted by a walk -/

/-- The nodes whose inside declares no further variables. -/
def Node.isCounted : Node → Bool
  | .stmt (.localVar ..) | .expr _ | .typeRef _ => true
  | _ => false

/-- A declaration of a local variable is entered. -/
def Tree.Event.entersLocal : Tree.Event → Bool
  | .enter (.stmt (.localVar ..)) => true
  | _ => false

/-- How many declarations are entered on a walk through a body that skips the
inside of declarations, expressions and types. -/
def Block.walkedLocals (b : Block) : Nat :=
  (b.tree.walk fun n => if n.isCounted then .skip else .descend).events.countP Tree.Event.entersLocal

theorem Expr.trail_tree (e : Expr) :
    e.tree.trail Node.isCounted = [.enter (.expr e), .leave (.expr e)] := by
  rw [Expr.tree_eq]
  rfl

@[simp] theorem Expr.countP_trail (e : Expr) :
    (e.tree.trail Node.isCounted).countP Tree.Event.entersLocal = 0 := by
  rw [e.trail_tree]
  rfl

@[simp] theorem Expr.countP_trailOption (o : Option Expr) :
    (Tree.trailAll Node.isCounted (Expr.treesOption o)).countP Tree.Event.entersLocal = 0 := by
  cases o with
  | none => rfl
  | some e => simp [Expr.treesOption, Tree.trailAll]

mutual

theorem Stmt.countP_trail : ∀ s : Stmt,
    (s.tree.trail Node.isCounted).countP Tree.Event.entersLocal = s.localCount
  | .localVar .. => rfl
  | .expr .. | .ret .. | .empty => by
    simp [Stmt.tree, Tree.trail, Tree.trailAll, Tree.leaf, Node.isCounted, Tree.Event.entersLocal,
      Stmt.localCount]
  | .branch _ thenPart elsePart _ => by
    simp [Stmt.tree, Tree.trail, Tree.trailAll, Node.isCounted, Tree.Event.entersLocal,
      Stmt.localCount, thenPart.countP_trail, Stmt.countP_trailOption elsePart]
  | .whileLoop _ body _ => by
    simp [Stmt.tree, Tree.trail, Tree.trailAll, Node.isCounted, Tree.Event.entersLocal,
      Stmt.localCount, body.countP_trail]
  | .forLoop init _ _ body _ => by
    simp [Stmt.tree, Tree.trail, Tree.trailAll, Tree.trailAll_append, Node.isCounted,
      Tree.Event.entersLocal, Stmt.localCount, body.countP_trail, Stmt.countP_trailOption init]
  | .block statements _ => by
    simp [Stmt.tree, Tree.trail, Node.isCounted, Tree.Event.entersLocal,
      Stmt.localCount, Stmt.countP_trailAll statements]

theorem Stmt.countP_trailAll : ∀ ss : List Stmt,
    (Tree.trailAll Node.isCounted (Stmt.trees ss)).countP Tree.Event.entersLocal =
      Stmt.localCountAll ss
  | [] => rfl
  | s :: ss => by
    rw [Stmt.trees, Tree.trailAll, List.countP_append, s.countP_trail, Stmt.countP_trailAll ss,
      Stmt.localCountAll]

theorem Stmt.countP_trailOption : ∀ o : Option Stmt,
    (Tree.trailAll Node.isCounted (Stmt.treesOption o)).countP Tree.Event.entersLocal =
      Stmt.localCountOption o
  | none => rfl
  | some s => by
    rw [Stmt.treesOption, Tree.trailAll, List.countP_append, s.countP_trail, Stmt.localCountOption]
    rfl

end

/-- A walk counts the words that a body needs. -/
theorem Block.walkedLocals_eq (b : Block) : b.walkedLocals = b.localCount := by
  have hwalk := Tree.walk_eq_trail Node.isCounted (fun _ => rfl) b.tree
  rw [Block.walkedLocals, hwalk, Block.tree, Tree.trail]
  simp [Node.isCounted, Tree.Event.entersLocal, Stmt.countP_trailAll, Block.localCount]

/-! ### Variables along the source -/

/-- What a line of code does with a variable of the source. -/
inductive VariableUse where
  | reads (name : String)
  | writes (name : String)
  | declares (name : String)

/-- For each line of the code of an expression, the variable that it names. -/
def Expr.uses : Expr → List (Option VariableUse)
  | .literal .. => [none]
  | .name ident _ => [some (.reads ident)]
  | .binary left op right _ =>
    if op.skipsOn?.isSome then left.uses ++ ([none, none] ++ (right.uses ++ [none]))
    else left.uses ++ (none :: (right.uses ++ (none :: List.replicate op.lineCount none)))
  | .unary _ operand _ => operand.uses ++ [none]
  | .assign (.name ident _) value _ => value.uses ++ [some (.writes ident)]
  | _ => []

def Expr.usesOption : Option Expr → List (Option VariableUse)
  | none => []
  | some e => e.uses

/-- The lines of a test that may leave a loop. -/
def Expr.usesTest : Option Expr → List (Option VariableUse)
  | none => []
  | some e => e.uses ++ [none, none]

mutual

/-- The frame behind a statement. A branch or a loop whose part is a declaration
without a block declares the name for what follows it. -/
def Stmt.frameAfter (f : Frame) : Stmt → Frame
  | .localVar _ ident _ _ => f.declare ident
  | .branch _ thenPart elsePart _ => Stmt.frameAfterOption (thenPart.frameAfter f) elsePart
  | .whileLoop _ body _ => body.frameAfter f
  | .forLoop init _ _ body _ => (body.frameAfter (Stmt.frameAfterOption f.enter init)).exit
  | .block statements _ => (Stmt.frameAfterAll f.enter statements).exit
  | .expr .. | .ret .. | .empty => f

def Stmt.frameAfterOption (f : Frame) : Option Stmt → Frame
  | none => f
  | some s => s.frameAfter f

def Stmt.frameAfterAll (f : Frame) : List Stmt → Frame
  | [] => f
  | s :: ss => Stmt.frameAfterAll (s.frameAfter f) ss

end

/-- A line of the code of a body: the frame in which it is generated, and the
variable that it names. -/
structure Site where
  frame : Frame
  use? : Option VariableUse

/-- Some lines that are generated in one frame. -/
def Frame.sites (f : Frame) (uses : List (Option VariableUse)) : List Site := uses.map (Site.mk f)

/-- The lines of a loop around those of its body, which leaves the frame `f'`. -/
def Frame.loopSites (f f' : Frame) (condition update : Option Expr) (body : List Site) : List Site :=
  f.sites (none :: Expr.usesTest condition) ++
    (body ++ f'.sites (Expr.usesOption update ++ [none, none]))

mutual

/-- The lines of the code of a statement. -/
def Stmt.sites (f : Frame) : Stmt → List Site
  | .expr e _ => f.sites (none :: e.uses)
  | .localVar _ ident initializer _ =>
    f.sites (none :: initializer.uses) ++ (f.declare ident).sites [some (.declares ident)]
  | .branch condition thenPart elsePart _ =>
    f.sites (none :: (condition.uses ++ [none, none])) ++
      (thenPart.sites f ++ Stmt.sitesElse (thenPart.frameAfter f) elsePart)
  | .whileLoop condition body _ =>
    f.sites [none] ++ f.loopSites (body.frameAfter f) (some condition) none (body.sites f)
  | .forLoop init condition update body _ =>
    let f₁ := Stmt.frameAfterOption f.enter init
    f.sites [none] ++ (Stmt.sitesOption f.enter init ++
      f₁.loopSites (body.frameAfter f₁) condition update (body.sites f₁))
  | .ret value _ => f.sites (none :: (Expr.usesOption value ++ [none]))
  | .block statements _ => Stmt.sitesAll f.enter statements
  | .empty => []

def Stmt.sitesElse (f : Frame) : Option Stmt → List Site
  | none => f.sites [none]
  | some s => f.sites [none, none] ++ (s.sites f ++ (s.frameAfter f).sites [none])

def Stmt.sitesOption (f : Frame) : Option Stmt → List Site
  | none => []
  | some s => s.sites f

def Stmt.sitesAll (f : Frame) : List Stmt → List Site
  | [] => []
  | s :: ss => s.sites f ++ Stmt.sitesAll (s.frameAfter f) ss

end

def Task.frameAfter (f : Frame) : Task → Frame
  | .stmt s => s.frameAfter f
  | .seq ss => Stmt.frameAfterAll f ss
  | .loop _ _ body => body.frameAfter f

def Task.sites (f : Frame) : Task → List Site
  | .stmt s => s.sites f
  | .seq ss => Stmt.sitesAll f ss
  | .loop condition update body =>
    f.loopSites (body.frameAfter f) condition update (body.sites f)

theorem Stmt.frameAfter_getD (f : Frame) (o : Option Stmt) :
    (o.getD .empty).frameAfter f = Stmt.frameAfterOption f o := by
  cases o <;> simp [Stmt.frameAfterOption, Stmt.frameAfter]

theorem Stmt.sites_getD (f : Frame) (o : Option Stmt) :
    (o.getD .empty).sites f = Stmt.sitesOption f o := by
  cases o <;> simp [Stmt.sitesOption, Stmt.sites]

/-! ### The lines agree with the source -/

/-- The word of memory that an instruction names. -/
def Instr.address? : Instr → Option Address
  | .mov _ (.mem a) | .arith _ _ (.mem a) | .store a _ | .storeWord a _ => some a
  | _ => none

def Line.address? : Line Instr → Option Address
  | .instr i => i.address?
  | _ => none

/-- What a line is at a site. It names the word that the variable has in the
frame of the site, or no word. -/
inductive Site.Matches : Site → Line Instr → Prop
  | quiet {f line} (h : line.address? = none) : Matches ⟨f, none⟩ line
  | reads {f name s} (h : f.lookup? name = some s) :
    Matches ⟨f, some (.reads name)⟩ (.instr (.mov .eax (.mem (.slot s))))
  | writes {f name s} (h : f.lookup? name = some s) :
    Matches ⟨f, some (.writes name)⟩ (.instr (.store (.slot s) .eax))
  | declares {f name s} (h : f.lookup? name = some s) :
    Matches ⟨f, some (.declares name)⟩ (.instr (.store (.slot s) .eax))

namespace Site

/-- The lines are those at the sites, one by one. -/
abbrev MatchAll (sites : List Site) (ls : Listing) : Prop := List.Forall₂ Matches sites ls

variable {f : Frame}

theorem MatchAll.append {sites sites' : List Site} {ls ls' : Listing} (h : MatchAll sites ls)
    (h' : MatchAll sites' ls') : MatchAll (sites ++ sites') (ls ++ ls') :=
  List.rel_append h h'

/-- Lines that name no word stand where no variable is used. -/
theorem MatchAll.quiet {ls : Listing} {k : Nat} (hk : ls.length = k)
    (h : ∀ line ∈ ls, line.address? = none) : MatchAll (f.sites (List.replicate k none)) ls := by
  subst hk
  induction ls with
  | nil => exact .nil
  | cons line ls ih =>
    obtain ⟨hline, hls⟩ := List.forall_mem_cons.mp h
    exact .cons (.quiet hline) (ih hls)

theorem MatchAll.jumpOn (c : Condition) (l : Label) :
    MatchAll (f.sites [none, none]) (jumpOn c l) :=
  .cons (.quiet rfl) (.cons (.quiet rfl) .nil)

end Site

open Site

@[simp] theorem Frame.sites_append (f : Frame) (us us' : List (Option VariableUse)) :
    f.sites (us ++ us') = f.sites us ++ f.sites us' := List.map_append ..

@[simp] theorem Frame.sites_cons (f : Frame) (u : Option VariableUse) (us : List (Option VariableUse)) :
    f.sites (u :: us) = ⟨f, u⟩ :: f.sites us := rfl

@[simp] theorem Frame.sites_nil (f : Frame) : f.sites [] = [] := rfl

theorem BinaryOp.match_emitEager {op : BinaryOp} {f : Frame} {n n' : Nat} {ls : Listing} {u : Unit}
    (h : op.emitEager.Gives n ls n' u) :
    MatchAll (f.sites (List.replicate op.lineCount none)) ls := by
  cases op with
  | and | or => exact absurd h Emit.gives_fail
  | _ =>
    simp only [BinaryOp.emitEager, emitComparison, Emit.gives_fresh_bind, Emit.gives_instr,
      Emit.gives_lines] at h
    obtain ⟨rfl, rfl⟩ := h
    exact .quiet rfl (by simp [Line.address?, Instr.address?])

theorem UnaryOp.match_emit {op : UnaryOp} {f : Frame} {n n' : Nat} {ls : Listing} {u : Unit}
    (h : op.emit.Gives n ls n' u) : MatchAll (f.sites [none]) ls := by
  cases op <;> obtain ⟨rfl, rfl⟩ := Emit.gives_instr.mp h <;> exact .cons (.quiet rfl) .nil

theorem ExprCode.sites_match {f : Frame} {e : Expr} {n n' : Nat} {ls : Listing}
    (h : ExprCode f e n ls n') : MatchAll (f.sites e.uses) ls := by
  induction h with
  | literal _ => exact .cons (.quiet rfl) .nil
  | name hs => exact .cons (.reads hs) .nil
  | shortCircuit hop _ _ ihl ihr =>
    rw [Expr.uses, hop, Option.isSome_some, if_pos rfl]
    simp only [Frame.sites_append]
    exact ihl.append ((MatchAll.jumpOn _ _).append (ihr.append (.cons (.quiet rfl) .nil)))
  | eager hop _ _ ho ihl ihr =>
    rw [Expr.uses, hop, Option.isSome_none, if_neg Bool.false_ne_true]
    simp only [Frame.sites_append, Frame.sites_cons]
    exact ihl.append (.cons (.quiet rfl)
      (ihr.append (.cons (.quiet rfl) (BinaryOp.match_emitEager ho))))
  | unary _ ho ih =>
    rw [Expr.uses, Frame.sites_append]
    exact ih.append (UnaryOp.match_emit ho)
  | assign hs _ ih =>
    rw [Expr.uses, Frame.sites_append]
    exact ih.append (.cons (.writes hs) .nil)

theorem OptionCode.sites_match {f : Frame} {o : Option Expr} {n n' : Nat} {ls : Listing}
    (h : OptionCode f o n ls n') : MatchAll (f.sites (Expr.usesOption o)) ls := by
  cases h with
  | absent => exact .nil
  | present h => exact h.sites_match

theorem TestCode.sites_match {f : Frame} {l : Label} {o : Option Expr} {n n' : Nat} {ls : Listing}
    (h : TestCode f l o n ls n') : MatchAll (f.sites (Expr.usesTest o)) ls := by
  cases h with
  | absent => exact .nil
  | present h =>
    rw [Expr.usesTest, Frame.sites_append]
    exact h.sites_match.append (.jumpOn _ _)

namespace TaskCode

variable {exit : Label} {f f' : Frame} {t : Task} {n n' : Nat} {ls : Listing}

/-- Generation leaves the frame that the source tells. -/
theorem frame_eq (h : TaskCode exit f t n ls n' f') : t.frameAfter f = f' := by
  induction h with
  | expr _ | localVar _ | ret _ | empty | nil => rfl
  | branch _ _ ih => exact ih
  | branchElse _ _ _ iht ihe =>
    subst iht
    exact ihe
  | whileLoop _ ih => exact ih
  | forLoop _ _ ihi ih =>
    rw [Task.frameAfter, Stmt.frameAfter_getD] at ihi
    subst ihi
    exact congrArg Frame.exit ih
  | block _ ih => exact congrArg Frame.exit ih
  | cons _ _ ih ihs =>
    subst ih
    exact ihs
  | loop _ _ _ ih => exact ih

/-- The lines of a task are those that the source tells. -/
theorem sites_match (h : TaskCode exit f t n ls n' f') : MatchAll (t.sites f) ls := by
  induction h with
  | expr h => exact .cons (.quiet rfl) h.sites_match
  | localVar h =>
    refine .cons (.quiet rfl) (h.sites_match.append (.cons (.declares ?_) .nil))
    rw [Frame.lookup?_declare, if_pos rfl]
  | branch hc _ ih =>
    simp only [Task.sites, Stmt.sites, Stmt.sitesElse, Frame.sites_cons, Frame.sites_append,
      List.cons_append, List.append_assoc]
    exact .cons (.quiet rfl) (hc.sites_match.append ((MatchAll.jumpOn _ _).append
      (ih.append (.cons (.quiet rfl) .nil))))
  | branchElse hc ht _ iht ihe =>
    -- the second part is generated in the frame that the first one leaves
    obtain rfl := ht.frame_eq
    simp only [Task.sites, Stmt.sites, Stmt.sitesElse, Frame.sites_cons, Frame.sites_append,
      List.cons_append, List.append_assoc]
    exact .cons (.quiet rfl) (hc.sites_match.append ((MatchAll.jumpOn _ _).append
      (iht.append (.cons (.quiet rfl) (.cons (.quiet rfl) (ihe.append (.cons (.quiet rfl) .nil)))))))
  | whileLoop _ ih => exact .cons (.quiet rfl) ih
  | forLoop hi _ ihi ih =>
    obtain rfl := hi.frame_eq
    rw [Task.frameAfter, Stmt.frameAfter_getD] at ih
    rw [Task.sites, Stmt.sites_getD] at ihi
    exact .cons (.quiet rfl) (ihi.append ih)
  | ret h =>
    rw [Task.sites, Stmt.sites, Frame.sites_cons, Frame.sites_append]
    exact .cons (.quiet rfl) (h.sites_match.append (.cons (.quiet rfl) .nil))
  | block _ ih => exact ih
  | empty | nil => exact .nil
  | cons h _ ih ihs =>
    obtain rfl := h.frame_eq
    exact ih.append ihs
  | loop hc hb hu ih =>
    obtain rfl := hb.frame_eq
    simp only [Task.sites, Frame.loopSites, Frame.sites_cons, Frame.sites_append, List.cons_append]
    exact .cons (.quiet rfl) (hc.sites_match.append (ih.append (hu.sites_match.append
      (.cons (.quiet rfl) (.cons (.quiet rfl) .nil)))))

end TaskCode

/-! ### Declarations take the next words -/

/-- The variable that is declared at a site, with its word. -/
def Site.declared? (site : Site) : Option (String × Slot) :=
  match site.use? with
  | some (.declares name) => (site.frame.lookup? name).map (name, ·)
  | _ => none

/-- The variables that are declared at some sites, in order. -/
def Site.declared (sites : List Site) : List (String × Slot) := sites.filterMap declared?

/-- Declarations with one word each, from the `k`th on. -/
def LocalDecl.wordsFrom (k : Nat) (ds : List LocalDecl) : List (String × Slot) :=
  (ds.zipIdx k).map fun b => (b.1.name, .localVar b.2)

theorem LocalDecl.wordsFrom_append (k : Nat) (ds ds' : List LocalDecl) :
    wordsFrom k (ds ++ ds') = wordsFrom k ds ++ wordsFrom (k + ds.length) ds' := by
  rw [wordsFrom, List.zipIdx_append, List.map_append]
  rfl

namespace Site

@[simp] theorem declared_nil : declared [] = [] := rfl

@[simp] theorem declared_append (sites sites' : List Site) :
    declared (sites ++ sites') = declared sites ++ declared sites' := List.filterMap_append ..

@[simp] theorem declared_none (f : Frame) (sites : List Site) :
    declared (⟨f, none⟩ :: sites) = declared sites := rfl

@[simp] theorem declared_replicate (f : Frame) (k : Nat) :
    declared (f.sites (List.replicate k none)) = [] := by
  induction k with
  | zero => rfl
  | succ k ih => exact ih

theorem declared_declares (f : Frame) (name : String) :
    declared [⟨f.declare name, some (.declares name)⟩] = [(name, f.nextSlot)] := by
  have hname : (f.declare name).lookup? name = some f.nextSlot := by
    rw [Frame.lookup?_declare, if_pos rfl]
  simp [declared, declared?, hname]

end Site

@[simp] theorem Expr.declared_uses (f : Frame) (e : Expr) : declared (f.sites e.uses) = [] := by
  fun_induction Expr.uses e with
  | case1 | case2 | case7 => rfl
  | case3 _ _ _ _ _ ihl ihr | case4 _ _ _ _ _ ihl ihr => simp [ihl, ihr]
  | case5 _ _ _ ih => simp [ih]
  | case6 _ _ _ _ ih =>
    rw [Frame.sites_append, declared_append, ih]
    rfl

@[simp] theorem Expr.declared_usesOption (f : Frame) (o : Option Expr) :
    declared (f.sites (Expr.usesOption o)) = [] := by
  cases o with
  | none => rfl
  | some e => exact e.declared_uses f

@[simp] theorem Expr.declared_usesTest (f : Frame) (o : Option Expr) :
    declared (f.sites (Expr.usesTest o)) = [] := by
  cases o with
  | none => rfl
  | some e => simp [Expr.usesTest]

/-- The local variables that a task declares, at any depth, in source order. -/
def Task.locals : Task → List LocalDecl
  | .stmt s => s.locals
  | .seq ss => Stmt.localsAll ss
  | .loop _ _ body => body.locals

theorem Stmt.locals_getD (o : Option Stmt) : (o.getD .empty).locals = Stmt.localsOption o := by
  cases o <;> simp [Stmt.localsOption, Stmt.locals]

mutual

theorem Stmt.length_locals : ∀ s : Stmt, s.locals.length = s.localCount
  | .localVar .. | .expr .. | .ret .. | .empty => rfl
  | .branch _ thenPart elsePart _ => by
    rw [Stmt.locals, List.length_append, thenPart.length_locals, Stmt.length_localsOption elsePart,
      Stmt.localCount]
  | .whileLoop _ body _ => body.length_locals
  | .forLoop init _ _ body _ => by
    rw [Stmt.locals, List.length_append, Stmt.length_localsOption init, body.length_locals,
      Stmt.localCount]
  | .block statements _ => Stmt.length_localsAll statements

theorem Stmt.length_localsAll : ∀ ss : List Stmt,
    (Stmt.localsAll ss).length = Stmt.localCountAll ss
  | [] => rfl
  | s :: ss => by
    rw [Stmt.localsAll, List.length_append, s.length_locals, Stmt.length_localsAll ss,
      Stmt.localCountAll]

theorem Stmt.length_localsOption : ∀ o : Option Stmt,
    (Stmt.localsOption o).length = Stmt.localCountOption o
  | none => rfl
  | some s => s.length_locals

end

namespace TaskCode

variable {exit : Label} {f f' : Frame} {t : Task} {n n' : Nat} {ls : Listing}

/-- A task takes a word for each of its declarations. -/
theorem nextLocal_eq (h : TaskCode exit f t n ls n' f') :
    f'.nextLocal = f.nextLocal + t.locals.length := by
  induction h with
  | expr _ | ret _ | empty | nil | localVar _ => rfl
  | branch _ _ ih => simpa [Task.locals, Stmt.locals, Stmt.localsOption] using ih
  | branchElse _ _ _ iht ihe =>
    simp only [Task.locals, Stmt.locals, Stmt.localsOption, List.length_append] at iht ihe ⊢
    omega
  | whileLoop _ ih => exact ih
  | forLoop _ _ ihi ih =>
    rw [Task.locals, Stmt.locals_getD] at ihi
    simp only [Task.locals, Stmt.locals, List.length_append, Frame.enter, Frame.exit] at ihi ih ⊢
    omega
  | block _ ih => exact ih
  | cons _ _ ih ihs =>
    simp only [Task.locals, Stmt.localsAll, List.length_append] at ih ihs ⊢
    omega
  | loop _ _ _ ih => exact ih

/-- The declarations of a task take the words from the next one on, in order. -/
theorem declared_eq (h : TaskCode exit f t n ls n' f') :
    declared (t.sites f) = LocalDecl.wordsFrom f.nextLocal t.locals := by
  induction h with
  | expr _ | ret _ =>
    simp only [Task.sites, Stmt.sites, Frame.sites_cons, Frame.sites_append, declared_none,
      declared_append, Expr.declared_uses, Expr.declared_usesOption]
    rfl
  | empty | nil => rfl
  | localVar _ =>
    simp only [Task.sites, Stmt.sites, Frame.sites_cons, Frame.sites_nil, declared_none,
      declared_append, Expr.declared_uses, declared_declares]
    rfl
  | branch _ _ ih =>
    simp only [Task.sites, Task.locals, Stmt.sites, Stmt.sitesElse, Stmt.locals, Stmt.localsOption,
      Frame.sites_cons, Frame.sites_append, Frame.sites_nil, declared_none, declared_append,
      Expr.declared_uses, declared_nil, List.nil_append, List.append_nil] at ih ⊢
    exact ih
  | branchElse _ ht _ iht ihe =>
    have hnext := ht.nextLocal_eq
    obtain rfl := ht.frame_eq
    simp only [Task.sites, Task.locals, Task.frameAfter] at iht ihe hnext
    simp only [Task.sites, Task.locals, Stmt.sites, Stmt.sitesElse, Stmt.locals, Stmt.localsOption,
      Frame.sites_cons, Frame.sites_append, Frame.sites_nil, declared_none, declared_append,
      Expr.declared_uses, declared_nil, List.nil_append, List.append_nil, LocalDecl.wordsFrom_append,
      iht, ihe, hnext]
  | whileLoop _ ih => exact ih
  | forLoop hi _ ihi ih =>
    have hnext := hi.nextLocal_eq
    obtain rfl := hi.frame_eq
    simp only [Task.sites, Task.locals, Task.frameAfter, Stmt.sites_getD, Stmt.locals_getD,
      Stmt.frameAfter_getD] at ihi ih hnext
    simp only [Task.sites, Task.locals, Stmt.sites, Stmt.locals, Frame.sites_cons, Frame.sites_nil,
      declared_none, declared_append, declared_nil, List.nil_append, LocalDecl.wordsFrom_append,
      ihi, ih, hnext]
    rfl
  | block _ ih => exact ih
  | cons h _ ih ihs =>
    have hnext := h.nextLocal_eq
    obtain rfl := h.frame_eq
    simp only [Task.sites, Task.locals, Task.frameAfter] at ih ihs hnext
    simp only [Task.sites, Task.locals, Stmt.sitesAll, Stmt.localsAll, declared_append,
      LocalDecl.wordsFrom_append, ih, ihs, hnext]
  | loop _ _ _ ih =>
    simp only [Task.sites, Frame.loopSites, Frame.sites_cons, Frame.sites_append, Frame.sites_nil,
      declared_none, declared_append, Expr.declared_usesOption, Expr.declared_usesTest, declared_nil,
      List.nil_append, List.append_nil]
    exact ih

end TaskCode

/-! ### The frames along the source -/

/-- A frame in the course of a body with some argument words that takes `locals`
words in all. -/
structure Frame.Within (arguments locals : Nat) (f : Frame) : Prop where
  placed : f.Placed arguments
  nextLocal_le : f.nextLocal ≤ locals
  isOpen : f.scopes ≠ []

namespace Frame

variable {f f' : Frame} {arguments locals : Nat}

theorem Grows.isOpen (h : f.Grows f') (hf : f.scopes ≠ []) : f'.scopes ≠ [] := by
  obtain ⟨scope, outer, hs⟩ := List.exists_cons_of_ne_nil hf
  obtain ⟨scope', hs'⟩ := h.scopes hs
  rw [hs']
  exact List.cons_ne_nil _ _

/-- Outside the innermost scope nothing changes. -/
theorem Grows.tail_scopes (h : f.Grows f') (hf : f.scopes ≠ []) :
    f'.scopes.length = f.scopes.length ∧ f'.scopes.tail = f.scopes.tail := by
  obtain ⟨scope, outer, hs⟩ := List.exists_cons_of_ne_nil hf
  obtain ⟨scope', hs'⟩ := h.scopes hs
  rw [hs, hs']
  exact ⟨rfl, rfl⟩

/-- Only one name has a given word. -/
theorem Placed.lookup?_inj (h : f.Placed arguments) {x y : String} {s : Slot}
    (hx : f.lookup? x = some s) (hy : f.lookup? y = some s) : x = y := by
  rw [lookup?_eq] at hx hy
  have hxy : (x, s) = (y, s) :=
    List.inj_on_of_nodup_map h.nodup (mem_of_lookup hx) (mem_of_lookup hy) rfl
  exact congrArg Prod.fst hxy

theorem Within.enter (h : f.Within arguments locals) : f.enter.Within arguments locals :=
  ⟨h.placed.enter, h.nextLocal_le, List.cons_ne_nil _ _⟩

theorem forall_mem_sites {P : Frame → Prop} (h : P f) (us : List (Option VariableUse)) :
    ∀ site ∈ f.sites us, P site.frame := by
  intro site hsite
  obtain ⟨u, -, rfl⟩ := List.mem_map.mp hsite
  exact h

end Frame

namespace TaskCode

variable {exit : Label} {f f' : Frame} {t : Task} {n n' arguments locals : Nat} {ls : Listing}

theorem within_after (h : TaskCode exit f t n ls n' f') (hf : f.Within arguments locals)
    (hl : f'.nextLocal ≤ locals) : f'.Within arguments locals :=
  ⟨h.placed hf.placed, hl, h.grows.isOpen hf.isOpen⟩

/-- Every frame in the course of a task is placed, has an open scope, and uses no
more words than the task takes in the end. -/
theorem within (h : TaskCode exit f t n ls n' f') (hf : f.Within arguments locals)
    (hl : f'.nextLocal ≤ locals) : ∀ site ∈ t.sites f, site.frame.Within arguments locals := by
  induction h with
  | expr _ | ret _ => exact Frame.forall_mem_sites hf _
  | localVar _ =>
    have hf' : Frame.Within arguments locals (Frame.declare _ _) :=
      ⟨hf.placed.declare _, hl, (Frame.Grows.declare _ _).isOpen hf.isOpen⟩
    exact List.forall_mem_append.mpr ⟨Frame.forall_mem_sites hf _, Frame.forall_mem_sites hf' _⟩
  | branch _ ht ih =>
    have hf₁ := ht.within_after hf hl
    obtain rfl := ht.frame_eq
    simp only [Task.sites, Stmt.sites, Stmt.sitesElse, List.forall_mem_append]
    exact ⟨Frame.forall_mem_sites hf _, ih hf hl, Frame.forall_mem_sites hf₁ _⟩
  | branchElse _ ht he iht ihe =>
    have hl₁ := Nat.le_trans he.grows.nextLocal hl
    have hf₁ := ht.within_after hf hl₁
    have hf₂ := he.within_after hf₁ hl
    obtain rfl := ht.frame_eq
    obtain rfl := he.frame_eq
    simp only [Task.sites, Stmt.sites, Stmt.sitesElse, List.forall_mem_append]
    exact ⟨Frame.forall_mem_sites hf _, iht hf hl₁, Frame.forall_mem_sites hf₁ _, ihe hf₁ hl,
      Frame.forall_mem_sites hf₂ _⟩
  | whileLoop _ ih =>
    exact List.forall_mem_append.mpr ⟨Frame.forall_mem_sites hf _, ih hf hl⟩
  | forLoop hi h ihi ih =>
    have hl₁ := Nat.le_trans h.grows.nextLocal hl
    have hf₁ := hi.within_after hf.enter hl₁
    obtain rfl := hi.frame_eq
    simp only [Task.sites, Stmt.sites, List.forall_mem_append, ← Stmt.sites_getD,
      ← Stmt.frameAfter_getD]
    exact ⟨Frame.forall_mem_sites hf _, ihi hf.enter hl₁, ih hf₁ hl⟩
  | block _ ih => exact ih hf.enter hl
  | empty | nil => exact fun _ hsite => absurd hsite List.not_mem_nil
  | cons h hs ih ihs =>
    have hl₁ := Nat.le_trans hs.grows.nextLocal hl
    have hf₁ := h.within_after hf hl₁
    obtain rfl := h.frame_eq
    exact List.forall_mem_append.mpr ⟨ih hf hl₁, ihs hf₁ hl⟩
  | loop _ hb _ ih =>
    have hf₁ := hb.within_after hf hl
    obtain rfl := hb.frame_eq
    simp only [Task.sites, Frame.loopSites, List.forall_mem_append]
    exact ⟨Frame.forall_mem_sites hf _, ih hf hl, Frame.forall_mem_sites hf₁ _⟩

end TaskCode

/-! ### The words of a routine -/

theorem Slot.bytes_inj {m n : Nat} (h : toString m = toString n) : m = n := by
  rw [Nat.toString_eq_ofList_toDigits, Nat.toString_eq_ofList_toDigits, String.ofList_inj] at h
  rw [← Nat.ofDigitChars_ten_toDigits (n := m), h, Nat.ofDigitChars_ten_toDigits]

/-- Different words have different operands. -/
theorem Slot.text_inj {s s' : Slot} (h : s.text = s'.text) : s = s' := by
  cases s with
  | argument i =>
    cases s' with
    | argument j =>
      have hbytes := bytes_inj ((String.append_right_inj _).mp ((String.append_left_inj _).mp h))
      simp only [wordSize] at hbytes
      rw [show i = j by omega]
    | localVar =>
      -- one operand adds to the frame pointer, the other subtracts
      simp [Slot.text, ← String.toList_inj] at h
  | localVar k =>
    cases s' with
    | argument => simp [Slot.text, ← String.toList_inj] at h
    | localVar k' =>
      have hbytes := bytes_inj ((String.append_right_inj _).mp ((String.append_left_inj _).mp h))
      simp only [wordSize] at hbytes
      rw [show k = k' by omega]

/-- A line names the word of a variable of its frame, or no word. -/
theorem Site.Matches.exists_lookup {site : Site} {line : Line Instr} {a : Address}
    (h : site.Matches line) (ha : line.address? = some a) :
    ∃ name s, site.frame.lookup? name = some s ∧ a = .slot s := by
  cases h with
  | quiet h => cases h.symm.trans ha
  | reads h | writes h | declares h => exact ⟨_, _, h, (Option.some.inj ha).symm⟩

theorem Site.MatchAll.exists_site {sites : List Site} {ls : Listing} (h : MatchAll sites ls)
    {line : Line Instr} (hline : line ∈ ls) : ∃ site ∈ sites, site.Matches line := by
  induction h with
  | nil => cases hline
  | cons h _ ih =>
    rcases List.mem_cons.mp hline with rfl | hline
    · exact ⟨_, List.mem_cons_self, h⟩
    · obtain ⟨site, hsite, hmatch⟩ := ih hline
      exact ⟨site, List.mem_cons_of_mem _ hsite, hmatch⟩

namespace Routine

/-- The lines of the code of a routine's body. -/
def sites (r : Routine) : List Site := Stmt.sitesAll r.frame r.body.statements

/-- The code of a body gives each variable a word of its own. -/
structure HasOwnWords (r : Routine) (ls : Listing) : Prop where
  /-- Each line names the variable that the source uses there, by the word that
  the variable has in the frame there. -/
  lines : MatchAll r.sites ls
  /-- The declarations take the words 0, 1, 2 and so on, in the order of the code. -/
  declared : Site.declared r.sites = LocalDecl.wordsFrom 0 (Stmt.localsAll r.body.statements)
  /-- A line names no words of memory but arguments and those in the bytes that
  the entry reserves below the frame pointer. -/
  reserved : ∀ line ∈ ls, ∀ a, line.address? = some a →
    (∃ i, a = .slot (.argument i) ∧ i < r.argumentWords) ∨
    ∃ k, a = .slot (.localVar k) ∧ wordSize * (k + 1) ≤ wordSize * r.body.localCount
  /-- At every line a scope is open. -/
  isOpen : ∀ site ∈ r.sites, site.frame.scopes ≠ []
  /-- At no line do two names share an operand. -/
  apart : ∀ site ∈ r.sites, ∀ x y s s', site.frame.lookup? x = some s →
    site.frame.lookup? y = some s' → x ≠ y → s.text ≠ s'.text

theorem hasOwnWords {r : Routine} {exit : Label} {n n' : Nat} {ls : Listing} {f' : Frame}
    (h : TaskCode exit r.frame (.seq r.body.statements) n ls n' f')
    (hl : f'.nextLocal = r.body.localCount) : r.HasOwnWords ls := by
  have hf : r.frame.Within r.argumentWords r.body.localCount :=
    ⟨r.frame_placed, Nat.zero_le _, List.cons_ne_nil _ _⟩
  have hwithin := h.within hf (Nat.le_of_eq hl)
  refine ⟨h.sites_match, h.declared_eq, ?_, fun site hsite => (hwithin site hsite).isOpen, ?_⟩
  · intro line hline a ha
    obtain ⟨site, hsite, hmatch⟩ := h.sites_match.exists_site hline
    obtain ⟨name, s, hs, rfl⟩ := hmatch.exists_lookup ha
    rw [Frame.lookup?_eq] at hs
    have hmem := Frame.mem_of_lookup hs
    have hsite := hwithin site hsite
    cases s with
    | argument i => exact .inl ⟨i, rfl, hsite.placed.argument hmem⟩
    | localVar k =>
      have hk : k < r.body.localCount :=
        Nat.lt_of_lt_of_le (hsite.placed.localVar hmem) hsite.nextLocal_le
      exact .inr ⟨k, rfl, Nat.mul_le_mul_left _ hk⟩
  · intro site hsite x y s s' hx hy hne htext
    -- equal operands are one word, and a word has one name
    obtain rfl := Slot.text_inj htext
    exact hne ((hwithin site hsite).placed.lookup?_inj hx hy)

end Routine

/-- The code of a block has the shape of the code of its statements in a scope of
their own. -/
theorem Block.code_of_gives {exit : Label} {f f' : Frame} {b : Block} {n n' : Nat} {ls : Listing}
    (h : (b.emit exit f).Gives n ls n' f') :
    ∃ f₁, TaskCode exit f.enter (.seq b.statements) n ls n' f₁ ∧ f' = f₁.exit := by
  obtain ⟨la, n₁, f₁, _, hs, h₁, rfl⟩ := Emit.gives_bind.mp h
  obtain ⟨rfl, rfl, rfl⟩ := Emit.gives_pure.mp h₁
  rw [List.append_nil]
  exact ⟨f₁, Stmt.codeAll_of_gives exit b.statements hs, rfl⟩

/-- If a body has code, then as many words are taken in it as its declarations
were counted to need, and each variable has a word of its own. A statement
changes the innermost scope only, and a block gives back the scopes it found.
Parameters may have equal names: the earlier of them is then out of scope. -/
theorem Routine.variables_have_own_words (r : Routine) (exit : Label) {n n' : Nat} {ls : Listing}
    {f' : Frame}
    (h : (r.body.emit exit (Frame.begin r.parameters r.isInstance)).Gives n ls n' f') :
    f'.nextLocal = r.body.walkedLocals ∧ r.body.walkedLocals = r.body.localCount ∧
    r.HasOwnWords ls ∧
    (∀ (s : Stmt) (f g : Frame) (m m' : Nat) (ms : Listing), (s.emit exit f).Gives m ms m' g →
      f.scopes ≠ [] → s.frameAfter f = g ∧
        g.scopes.length = f.scopes.length ∧ g.scopes.tail = f.scopes.tail) ∧
    ∀ (b : Block) (f g : Frame) (m m' : Nat) (ms : Listing), (b.emit exit f).Gives m ms m' g →
      g.scopes = f.scopes := by
  obtain ⟨f₁, hbody, rfl⟩ := Block.code_of_gives h
  have hnext : f₁.nextLocal = r.body.localCount := by
    rw [hbody.nextLocal_eq, Block.localCount, ← Stmt.length_localsAll]
    exact Nat.zero_add _
  refine ⟨hnext.trans r.body.walkedLocals_eq.symm, r.body.walkedLocals_eq,
    hasOwnWords hbody hnext, fun s f g m m' ms hs ho => ?_, fun b f g m m' ms hb => ?_⟩
  · have hcode := Stmt.code_of_gives exit s hs
    exact ⟨hcode.frame_eq, hcode.grows.tail_scopes ho⟩
  · obtain ⟨g₁, hcode, rfl⟩ := Block.code_of_gives hb
    exact hcode.grows.exit_scopes

/-- An instance routine that declares the name `x` three times, once behind a
branch without a block, and a variable of a loop. -/
def shadowing : Routine where
  name := "shadowing"
  symbol := "shadowing"
  parameters := ["a"]
  isInstance := true
  body := {
    statements := [
      .localVar (.named "int") "x" (.ofName "a") .zero,
      .block [
        .localVar (.named "int") "x" (.ofBinary (.ofName "x") .add (.ofInt 1)) .zero,
        .localVar (.named "int") "y" (.ofName "x") .zero] .zero,
      .forLoop (some (.localVar (.named "int") "i" (.ofInt 0) .zero))
        (some (.ofBinary (.ofName "i") .lt (.ofName "a")))
        (some (.assign (.ofName "i") (.ofBinary (.ofName "i") .add (.ofInt 1)) .zero))
        (.block [.localVar (.named "int") "y" (.ofName "i") .zero] .zero) .zero,
      .branch (.ofBinary (.ofName "a") .eq (.ofName "x"))
        (.localVar (.named "int") "x" (.ofInt 2) .zero) none .zero,
      .ret (some (.ofName "x")) .zero]
    span := .zero }

/-- The six variables of `shadowing` have six words. -/
theorem shadowing_variables :
    (shadowing.body.emit (.temporary 0) (.begin ["a"] true)).Gives 1
      (shadowing.body.emit (.temporary 0) (.begin ["a"] true) 1).lines 6 ⟨6, [("a", 1)], []⟩ ∧
    shadowing.body.walkedLocals = 6 ∧
    Site.declared shadowing.sites = [("x", .localVar 0), ("x", .localVar 1), ("y", .localVar 2),
      ("i", .localVar 3), ("y", .localVar 4), ("x", .localVar 5)] ∧
    shadowing.HasOwnWords (shadowing.body.emit (.temporary 0) (.begin ["a"] true) 1).lines := by
  have hgives : (shadowing.body.emit (.temporary 0) (.begin ["a"] true)).Gives 1
      (shadowing.body.emit (.temporary 0) (.begin ["a"] true) 1).lines 6 ⟨6, [("a", 1)], []⟩ := by
    rfl
  obtain ⟨htaken, -, hwords, -⟩ := shadowing.variables_have_own_words (.temporary 0) hgives
  exact ⟨hgives, htaken.symm, hwords.declared, hwords⟩

end ClassCompiler
