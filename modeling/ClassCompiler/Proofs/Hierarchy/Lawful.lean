import ClassCompiler.Hierarchy.Verify
import ClassCompiler.Proofs.Hierarchy.Updates
import Mathlib.Logic.Relation

/-!
# The rules of a lawful hierarchy

What a graph has to obey, said of its types and edges and not of the passes
that verify it: types are declared, parents are of the right kind, no type is
its own ancestor, and methods agree within a type and with those of every type
it extends, however far up. The checks of one type at a time are read off here;
the two passes over the whole graph have modules of their own.

Key definitions: `Graph.Parent`, `Graph.Extends`, `Graph.RightKinds`,
`Method.MayReplace`, `TypeNode.OwnMethodsLawful`, `Graph.ReplacesLawfully`, `Graph.Lawful`.
-/

namespace ClassCompiler

/-- A method may stand in for an inherited one of the same signature. -/
structure Method.MayReplace (m inherited : Method) : Prop where
  returns : inherited.returnType = m.returnType
  static : inherited.has .isStatic = m.has .isStatic
  visible : ¬ (inherited.has .isPublic = true ∧ m.has .isProtected = true)
  replaceable : inherited.has .isFinal = false

/-- No signature is declared twice, and only an abstract class or an interface
has abstract methods. -/
structure TypeNode.OwnMethodsLawful (n : TypeNode) : Prop where
  distinct : (n.methods.map (·.signature)).Nodup
  concrete : ∀ m ∈ n.methods, m.has .isAbstract = true → n.isAbstract = true ∨ n.isInterface = true

namespace Graph

/-- A type and one that it extends or implements. -/
def Parent (g : Graph) (c p : Nat) : Prop := p ∈ (g.node c).parents

/-- A type and one that it extends. -/
def Extends (g : Graph) (c d : Nat) : Prop := d ∈ (g.node c).extended

/-- Classes extend classes that are not final, interfaces extend interfaces,
and no class is implemented. An undeclared type may be either. -/
structure RightKinds (g : Graph) (c : Nat) : Prop where
  ofClass : (g.node c).isClass = true → ∀ p, g.Extends c p →
    (g.node p).isInterface = false ∧ (g.node p).isFinal = false
  ofInterface : (g.node c).isInterface = true → ∀ p, g.Extends c p → (g.node p).isClass = false
  implemented : ∀ p ∈ (g.node c).implemented, (g.node p).isClass = false

/-- The methods of a type against those of all types that it extends, directly
or through others. -/
def ReplacesLawfully (g : Graph) (c : Nat) : Prop :=
  ∀ d, Relation.TransGen g.Extends c d → ∀ o ∈ (g.node d).methods, ∀ m ∈ (g.node c).methods,
    o.signature = m.signature → m.MayReplace o

/-- The rules of the hierarchy. -/
structure Lawful (g : Graph) (allowUnresolved : Bool) : Prop where
  resolved : allowUnresolved = true ∨ ∀ id ∈ g.ids, (g.node id).isPlaceholder = false
  kinds : ∀ c ∈ g.ids, g.RightKinds c
  acyclic : ∀ c ∈ g.ids, ¬ Relation.TransGen g.Parent c c
  own : ∀ c ∈ g.ids, (g.node c).OwnMethodsLawful
  replaced : ∀ c ∈ g.ids, g.ReplacesLawfully c

variable {g : Graph}

/-! ### Checks of one type -/

theorem checkEach_eq_ok {α : Type} {check : α → Except Violation Unit} : ∀ {as : List α},
    checkEach check as = .ok () ↔ ∀ a ∈ as, check a = .ok ()
  | [] => by simp [checkEach]
  | a :: as => by
    rw [checkEach, List.forall_mem_cons]
    rcases h : check a with v | _
    · simp
    · simp [checkEach_eq_ok]

theorem checkResolved_eq_ok :
    g.checkResolved = .ok () ↔ ∀ id ∈ g.ids, (g.node id).isPlaceholder = false := by
  have hnil : g.placeholders = [] ↔ ∀ id ∈ g.ids, (g.node id).isPlaceholder = false := by
    simp [placeholders]
  rw [← hnil, checkResolved]
  rcases g.placeholders with _ | ⟨id, ids⟩
  · simp
  · simp

theorem checkExtended_eq_ok {n p : TypeNode} :
    checkExtended n p = .ok () ↔
      (n.isClass = true → p.isInterface = false ∧ p.isFinal = false) ∧
      (n.isInterface = true → p.isClass = false) := by
  have hkind : n.isClass = true → n.isInterface = false := by
    intro h
    simp [TypeNode.isInterface, beq_iff_eq.mp h]
  rw [checkExtended]
  split
  · rename_i h
    rw [hkind h]
    split
    · simp_all
    · split <;> simp_all
  · split <;> simp_all

theorem checkImplemented_eq_ok {n p : TypeNode} :
    checkImplemented n p = .ok () ↔ p.isClass = false := by
  rw [checkImplemented]
  split <;> simp_all

/-- One check after another. -/
theorem seq_eq_ok {α : Type} {x : Except Violation Unit} {y : Except Violation α} {a : α} :
    (x >>= fun _ => y) = .ok a ↔ x = .ok () ∧ y = .ok a := by
  rcases x with v | _
  · simp [bind, Except.bind]
  · simp [bind, Except.bind]

theorem checkParents_eq_ok {c : Nat} : g.checkParents (g.node c) = .ok () ↔ g.RightKinds c := by
  rw [checkParents, seq_eq_ok, checkEach_eq_ok, checkEach_eq_ok]
  simp only [checkExtended_eq_ok, checkImplemented_eq_ok]
  constructor
  · rintro ⟨hext, himp⟩
    exact ⟨fun hc p hp => (hext p hp).1 hc, fun hi p hp => (hext p hp).2 hi, himp⟩
  · rintro ⟨hc, hi, himp⟩
    exact ⟨fun p hp => ⟨fun h => hc h p hp, fun h => hi h p hp⟩, himp⟩

theorem checkOwnMethods_after_eq_ok {n : TypeNode} : ∀ {earlier ms : List Method},
    checkOwnMethods n earlier ms = .ok () ↔
      (∀ m ∈ ms, ∀ o ∈ earlier, o.signature ≠ m.signature) ∧ (ms.map (·.signature)).Nodup ∧
      ∀ m ∈ ms, m.has .isAbstract = true → n.isAbstract = true ∨ n.isInterface = true
  | earlier, [] => by simp [checkOwnMethods]
  | earlier, m :: ms => by
    rw [checkOwnMethods, List.map_cons, List.nodup_cons, List.forall_mem_cons, List.forall_mem_cons]
    by_cases he : earlier.any (fun o => o.signature = m.signature) = true
    · rw [if_pos he]
      simp only [List.any_eq_true, decide_eq_true_eq] at he
      obtain ⟨o, ho, hs⟩ := he
      exact ⟨nofun, fun h => absurd hs (h.1.1 o ho)⟩
    rw [if_neg he]
    simp only [List.any_eq_true, decide_eq_true_eq, not_exists, not_and] at he
    by_cases ha : (m.has .isAbstract && !(n.isAbstract || n.isInterface)) = true
    · rw [if_pos ha]
      simp only [Bool.and_eq_true, Bool.not_eq_true', Bool.or_eq_false_iff] at ha
      refine ⟨nofun, fun h => ?_⟩
      rcases h.2.2.1 ha.1 with h | h
      · cases ha.2.1.symm.trans h
      · cases ha.2.2.symm.trans h
    · rw [if_neg ha, checkOwnMethods_after_eq_ok]
      simp only [Bool.and_eq_true, Bool.not_eq_true', Bool.or_eq_false_iff, not_and] at ha
      simp only [List.mem_append, List.mem_singleton, List.mem_map]
      grind

theorem checkOwnMethods_eq_ok {n : TypeNode} :
    checkOwnMethods n [] n.methods = .ok () ↔ n.OwnMethodsLawful := by
  rw [checkOwnMethods_after_eq_ok]
  exact ⟨fun h => ⟨h.2.1, h.2.2⟩, fun h => ⟨fun _ _ => nofun, h.distinct, h.concrete⟩⟩

theorem checkReplacement_eq_ok {n : TypeNode} {o m : Method} :
    checkReplacement n o m = .ok () ↔ (o.signature = m.signature → m.MayReplace o) := by
  have hiff : m.MayReplace o ↔ o.returnType = m.returnType ∧ o.has .isStatic = m.has .isStatic ∧
      ¬ (o.has .isPublic = true ∧ m.has .isProtected = true) ∧ o.has .isFinal = false :=
    ⟨fun ⟨h₁, h₂, h₃, h₄⟩ => ⟨h₁, h₂, h₃, h₄⟩, fun ⟨h₁, h₂, h₃, h₄⟩ => ⟨h₁, h₂, h₃, h₄⟩⟩
  rw [hiff, checkReplacement]
  grind

end Graph
end ClassCompiler
