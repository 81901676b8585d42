import ClassCompiler.SelfReference
import ClassCompiler.Proofs.Source.Parts
import ClassCompiler.Proofs.Source.Walks

/-!
# Self references without the walk

A unit has a self reference exactly if one of the local variables that its
bodies declare is named in its own initializer, at any depth, and what is
reported is the first such declaration and the first such name in it.

Both passes are told by the walk that goes everywhere. The one through a unit
fails at the first node it enters that fails. The one through an initializer
declines all nodes after it has found the name, and so keeps the first.

Key definitions: `Expr.Mentions`, `LocalDecl.IsSelfReferring`.

Key theorems: `SelfReference.uses?_eq_walk`, `SelfReference.checkSelfReferences_eq_walk`,
`SelfReference.checkSelfReferences_eq_locals`, `checkSelfReferences_error_iff`.
-/

namespace ClassCompiler

/-- The expression is a name whose first segment is `ident`. -/
def Expr.Mentions (ident : String) : Expr → Prop
  | .name text _ => Text.firstSegment text = ident
  | _ => False

/-- The initializer of a variable names the variable. -/
def LocalDecl.IsSelfReferring (d : LocalDecl) : Prop :=
  ∃ e ∈ d.initializer.parts, e.Mentions d.name

namespace SelfReference

variable {d : LocalDecl} {e : Expr} {ident : String} {span : Span}

theorem mention?_eq_some :
    mention? ident (.expr e) = some span ↔ e.Mentions ident ∧ e.span = span := by
  cases e with
  | name text s =>
    unfold mention?
    by_cases h : Text.firstSegment text = ident
    · simp [Expr.Mentions, Expr.span, h]
    · simp [Expr.Mentions, h]
  | _ => simp [mention?, Expr.Mentions]

theorem mention?_eq_none : mention? ident (.expr e) = none ↔ ¬ e.Mentions ident := by
  rw [Option.eq_none_iff_forall_ne_some]
  simp only [ne_eq, mention?_eq_some]
  exact ⟨fun h hm => h e.span ⟨hm, rfl⟩, fun h s hm => h hm.1⟩

mutual

/-- The finder keeps what it has, and else finds the first mention. -/
theorem run_finder (ident : String) : ∀ (t : Tree) (found : Option Span),
    (t.traverse (finder ident)).run found =
      ((), found.or (t.preorder.findSome? fun t => mention? ident t.node))
  | .branch n ts, some span => rfl
  | .branch n ts, none => by
    show (Tree.traverseAll (finder ident) ts).run (mention? ident n) = _
    rw [run_finderAll ident ts, Tree.preorder, List.findSome?_cons, Option.none_or]
    show ((), (mention? ident n).or _) = _
    rcases h : mention? ident n with _ | span
    · simp [Tree.node, h]
    · simp [Tree.node, h]

theorem run_finderAll (ident : String) : ∀ (ts : List Tree) (found : Option Span),
    (Tree.traverseAll (finder ident) ts).run found =
      ((), found.or ((Tree.preorderAll ts).findSome? fun t => mention? ident t.node))
  | [], found => by
    rw [Tree.preorderAll, List.findSome?_nil, Option.or_none]
    rfl
  | t :: ts, found => by
    rw [Tree.traverseAll, StateT.run_bind, run_finder ident t, Tree.preorderAll, List.findSome?_append]
    show (Tree.traverseAll (finder ident) ts).run _ = _
    rw [run_finderAll ident ts, Option.or_assoc]

end

/-- To decline once the name is found loses nothing: the finder has the first
mention among all nodes that a walk enters. -/
theorem uses?_eq_walk (ident : String) (e : Expr) :
    uses? ident e =
      (Tree.Event.entered (e.tree.walk fun _ => .descend).events).findSome? (mention? ident) := by
  rw [uses?, run_finder, Option.none_or, Tree.entered_walk, List.findSome?_map]
  rfl

theorem uses?_eq (ident : String) (e : Expr) :
    uses? ident e = e.parts.findSome? fun e => mention? ident (.expr e) := by
  rw [← e.collect_expr?, Tree.collect, ← List.head?_filterMap, List.filterMap_filterMap,
    List.head?_filterMap, uses?_eq_walk, Tree.entered_walk, List.findSome?_map]
  congr 1
  funext t
  rw [Function.comp_apply]
  cases t.node <;> rfl

/-- Fails for a declaration that refers to itself. -/
def checkLocal (d : LocalDecl) : Except Error Unit :=
  match uses? d.name d.initializer with
  | some span => .error (.selfReference d.name span)
  | none => .ok ()

theorem checkLocal_eq_ok : checkLocal d = .ok () ↔ ¬ d.IsSelfReferring := by
  have hnone : uses? d.name d.initializer = none ↔ ¬ d.IsSelfReferring := by
    simp [uses?_eq, mention?_eq_none, LocalDecl.IsSelfReferring]
  rw [← hnone, checkLocal]
  rcases uses? d.name d.initializer with _ | span
  · simp
  · simp

theorem checkLocal_eq_error {err : Error} : checkLocal d = .error err ↔
    ∃ others name rest, d.initializer.parts = others ++ name :: rest ∧
      (∀ o ∈ others, ¬ o.Mentions d.name) ∧ name.Mentions d.name ∧
      err = .selfReference d.name name.span := by
  have hsome : checkLocal d = .error err ↔
      ∃ span, uses? d.name d.initializer = some span ∧ err = .selfReference d.name span := by
    rw [checkLocal]
    rcases uses? d.name d.initializer with _ | span
    · simp
    · simp [eq_comm]
  rw [hsome]
  simp only [uses?_eq, List.findSome?_eq_some_iff, mention?_eq_some, mention?_eq_none]
  constructor
  · rintro ⟨_, ⟨others, name, rest, hparts, ⟨hname, rfl⟩, hothers⟩, rfl⟩
    exact ⟨others, name, rest, hparts, hothers, hname, rfl⟩
  · rintro ⟨others, name, rest, hparts, hothers, hname, rfl⟩
    exact ⟨name.span, ⟨others, name, rest, hparts, ⟨hname, rfl⟩, hothers⟩, rfl⟩

/-! ### Checks one after another -/

section
variable {α β : Type}

/-- Checks in order fail with the first that does. -/
theorem forM_eq_error {check : α → Except Error Unit} {as : List α} {err : Error} :
    forM as check = .error err ↔ ∃ before a after, as = before ++ a :: after ∧
      (∀ b ∈ before, check b = .ok ()) ∧ check a = .error err := by
  induction as with
  | nil => simp [pure, Except.pure]
  | cons a as ih =>
    rw [List.forM_cons]
    rcases ha : check a with e | ⟨⟩
    · constructor
      · intro h
        exact ⟨[], a, as, rfl, by simp, ha.trans h⟩
      · rintro ⟨before, a', after, has, hbefore, herr⟩
        rcases List.cons_eq_append_iff.mp has with ⟨rfl, has⟩ | ⟨before', rfl, -⟩
        · obtain ⟨rfl, -⟩ := List.cons.inj has
          exact ha.symm.trans herr
        · rw [hbefore a List.mem_cons_self] at ha
          cases ha
    · show forM as check = .error err ↔ _
      rw [ih]
      constructor
      · rintro ⟨before, a', after, rfl, hbefore, herr⟩
        exact ⟨a :: before, a', after, rfl, List.forall_mem_cons.mpr ⟨ha, hbefore⟩, herr⟩
      · rintro ⟨before, a', after, has, hbefore, herr⟩
        rcases List.cons_eq_append_iff.mp has with ⟨rfl, has⟩ | ⟨before', rfl, rfl⟩
        · obtain ⟨rfl, -⟩ := List.cons.inj has
          rw [herr] at ha
          cases ha
        · exact ⟨before', a', after, rfl, (List.forall_mem_cons.mp hbefore).2, herr⟩

theorem exists_forM_eq_error {check : α → Except Error Unit} {as : List α} :
    (∃ err, forM as check = .error err) ↔ ∃ a ∈ as, check a ≠ .ok () := by
  induction as with
  | nil => simp [pure, Except.pure]
  | cons a as ih =>
    rw [List.forM_cons, List.exists_mem_cons_iff, ← ih]
    rcases ha : check a with e | ⟨⟩
    · exact ⟨fun _ => .inl (by simp), fun _ => ⟨e, rfl⟩⟩
    · simp [bind, Except.bind]

theorem forM_filterMap {f : α → Option β} {check : β → Except Error Unit} (as : List α) :
    forM (as.filterMap f) check = forM as fun a => (f a).elim (.ok ()) check := by
  induction as with
  | nil => rfl
  | cons a as ih =>
    rw [List.filterMap_cons, List.forM_cons, ← ih]
    rcases f a with _ | b
    · rfl
    · exact List.forM_cons

end

theorem checkNode_eq (n : Node) : checkNode n = n.local?.elim (.ok ()) checkLocal := by
  cases n with
  | stmt s => cases s <;> rfl
  | _ => rfl

/-- The pass through a unit checks the nodes that a walk enters, up to the first
that fails. -/
theorem checkSelfReferences_eq_walk (u : CompilationUnit) : u.checkSelfReferences =
    forM (Tree.Event.entered (u.tree.walk fun _ => .descend).events) checkNode :=
  Tree.traverse_eq_forM_entered (fun _ => rfl) (fun _ => rfl) u.tree

/-- Of these only the variables count that the bodies declare. -/
theorem checkSelfReferences_eq_locals (u : CompilationUnit) :
    u.checkSelfReferences = forM u.locals checkLocal := by
  rw [← u.collect_local?, Tree.collect, forM_filterMap, checkSelfReferences_eq_walk,
    Tree.entered_walk, List.forM_map]
  simp only [checkNode_eq]

theorem checkSelfReferences_eq (us : List CompilationUnit) :
    checkSelfReferences us = forM (us.flatMap (·.locals)) checkLocal := by
  induction us with
  | nil => rfl
  | cons u us ih =>
    rw [List.flatMap_cons, List.forM_append, ← ih, ← checkSelfReferences_eq_locals]
    rfl

end SelfReference

/-- A program is refused exactly if some body declares a variable whose
initializer names it, and what is reported is the first such variable and the
first such name. -/
theorem checkSelfReferences_error_iff (us : List CompilationUnit) :
    ((∃ e, checkSelfReferences us = .error e) ↔ ∃ u ∈ us, ∃ d ∈ u.locals, d.IsSelfReferring) ∧
    ∀ e, checkSelfReferences us = .error e ↔
      ∃ before d after, us.flatMap (·.locals) = before ++ d :: after ∧
        (∀ b ∈ before, ¬ b.IsSelfReferring) ∧
        ∃ others name rest, d.initializer.parts = others ++ name :: rest ∧
          (∀ o ∈ others, ¬ o.Mentions d.name) ∧ name.Mentions d.name ∧
          e = .selfReference d.name name.span := by
  rw [SelfReference.checkSelfReferences_eq]
  constructor
  · rw [SelfReference.exists_forM_eq_error]
    simp only [ne_eq, SelfReference.checkLocal_eq_ok, not_not, List.mem_flatMap]
    exact ⟨fun ⟨d, ⟨u, hu, hd⟩, hself⟩ => ⟨u, hu, d, hd, hself⟩,
      fun ⟨u, hu, d, hd, hself⟩ => ⟨d, ⟨u, hu, hd⟩, hself⟩⟩
  · intro e
    simp only [SelfReference.forM_eq_error, SelfReference.checkLocal_eq_ok,
      SelfReference.checkLocal_eq_error]

end ClassCompiler
