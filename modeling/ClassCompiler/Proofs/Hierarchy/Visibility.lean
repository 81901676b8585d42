import ClassCompiler.Proofs.Hierarchy.Agreement
import ClassCompiler.Proofs.Hierarchy.Inheritance
import ClassCompiler.Proofs.Hierarchy.OrderFree

/-!
# Parents that a unit can see

A unit may use a name for the type of that very name, for a type that it
imports by it, for a type of a package that it imports on demand, and for a
type of its own package. Whatever else a program declares, before or after, the
parents of a type are types that its unit may use the written names for.

An edge is set when its unit is declared, and moved when the placeholder it
leads to is folded into a later type. Only a simple name is ever folded, and an
edge can lead to a simple name only if the unit wrote that name; so the name of
the later type is one that the unit may use the written name for, because it
sees the type.

Key definitions: `CompilationUnit.MayDenote`, `TypeDecl.clause`, `Enrolled.Visible`.

Key theorems: `Roster.visible_fold?`, `Roster.visible_run?`, `Graph.parents_visible`.
-/

namespace ClassCompiler

namespace CompilationUnit

variable {u t : CompilationUnit} {n x : String}

/-- The names of types that a unit may use the name `n` for. -/
inductive MayDenote (u : CompilationUnit) (n : String) : String → Prop
  | itself : MayDenote u n n
  | imported {i : ImportDecl} (hi : i ∈ u.imports) (ho : i.onDemand = false)
    (hn : Text.lastSegment i.name = n) : MayDenote u n i.name
  | onDemand {i : ImportDecl} (hi : i ∈ u.imports) (ho : i.onDemand = true) :
    MayDenote u n (Text.qualify i.name n)
  | package : MayDenote u n (Text.qualify u.packageName n)

/-- Whichever way a look-up goes, it stays among these names. -/
theorem Resolves.mayDenote {known : String → Bool} (h : u.Resolves known n x) : u.MayDenote n x := by
  cases h with
  | known | dotted | placeholder => exact .itself
  | imported _ _ hi =>
    obtain ⟨i, hmem, ho, rfl, hlast⟩ := importedName?_eq_some hi
    exact .imported hmem ho hlast
  | onDemand _ _ _ hmem ho => exact .onDemand hmem ho
  | package => exact .package

/-- A simple name is meant only by those who write it. -/
theorem MayDenote.eq_of_simple (h : u.MayDenote n x) (hx : Text.isDotted x = false) : x = n := by
  have hqualify : ∀ {package : String}, Text.isDotted (Text.qualify package n) = false →
      Text.qualify package n = n := by
    intro package hq
    by_cases hp : package = ""
    · rw [hp, Text.qualify_empty]
    · rw [Text.isDotted_qualify hp] at hq
      cases hq
  cases h with
  | itself => rfl
  | imported _ _ hn => rw [← hn, Text.lastSegment_of_not_isDotted hx]
  | onDemand => exact hqualify hx
  | package => exact hqualify hx

/-- A unit may use the simple name of a type that it sees. -/
theorem mayDenote_of_sees (h : u.sees t = true) (ht : Text.isDotted t.decl.name = false) :
    u.MayDenote t.decl.name t.qualifiedName := by
  rcases sees_iff.mp h with hp | ⟨i, hi, himport⟩
  · rw [qualifiedName, ← hp]
    exact .package
  · split at himport
    · rename_i ho
      rw [qualifiedName, ← himport]
      exact .onDemand hi ho
    · rename_i ho
      rw [← himport]
      refine .imported hi (by simpa using ho) ?_
      rw [himport, qualifiedName, Text.lastSegment_qualify _ ht]

end CompilationUnit

/-- One parent for each that the unit names, in order, of the same kind and
under a name that the unit may use the written one for. -/
def Enrolled.Visible (e : Enrolled) : Prop :=
  List.Forall₂ (fun p q => p.1 = q.1 ∧ e.unit.MayDenote p.2 q.2) e.unit.decl.parents e.parents

namespace Roster

variable {t t' : Roster} {u : CompilationUnit}

theorem Linked.visible {acc names ps : List (Relation × String)} (h : t.Linked u acc names ps) :
    List.Forall₂ (fun p q => p.1 = q.1 ∧ u.MayDenote p.2 q.2) names ps := by
  induction h with
  | nil => exact .nil
  | cons hx _ _ ih => exact .cons ⟨rfl, hx.mayDenote⟩ ih

/-- A fold moves an edge only to a type that the unit of the edge sees. -/
theorem visible_fold? (hu : Text.isDotted u.decl.name = false) (h : t.fold? u = some t')
    (ht : ∀ e ∈ t, e.Visible) : ∀ e ∈ t', e.Visible := by
  rcases fold?_eq_some.mp h with ⟨-, rfl⟩ | ⟨hf, rfl, -⟩
  · exact ht
  obtain ⟨-, -, -, hsees⟩ := foldsInto_iff.mp hf
  intro e' he'
  obtain ⟨e, he, rfl⟩ := List.mem_map.mp he'
  refine List.forall₂_map_right_iff.mpr (forall₂_imp_of_mem (ht e he) ?_)
  rintro p - q hq ⟨hkind, hmay⟩
  refine ⟨hkind, ?_⟩
  show e.unit.MayDenote p.2 (if q.2 = u.decl.name then u.qualifiedName else q.2)
  by_cases hold : q.2 = u.decl.name
  · -- the edge led to the placeholder, so its unit wrote the simple name
    rw [if_pos hold]
    have hwritten : u.decl.name = p.2 := by
      rw [hold] at hmay
      exact hmay.eq_of_simple hu
    have hnames : e.names u.decl.name = true := Enrolled.names_of_mem hq hold
    rw [← hwritten]
    exact CompilationUnit.mayDenote_of_sees (hsees e he hnames) hu
  · rw [if_neg hold]
    exact hmay

theorem visible_declare? (hu : Text.isDotted u.decl.name = false) (h : t.declare? u = some t')
    (ht : ∀ e ∈ t, e.Visible) : ∀ e ∈ t', e.Visible := by
  obtain ⟨-, -, t₁, ps, hf, hl, rfl⟩ := declare?_eq_some h
  intro e he
  rcases List.mem_append.mp he with he | he
  · exact visible_fold? hu hf ht e he
  · rw [List.mem_singleton.mp he]
    exact hl.visible

theorem visible_run? {us : List CompilationUnit} (hus : ∀ u ∈ us, Text.isDotted u.decl.name = false)
    (h : run? [] us = some t) : ∀ e ∈ t, e.Visible := by
  refine run?_inv (I := fun t => ∀ e ∈ t, e.Visible) ?_ (List.forall_mem_nil _) h
  intro t u t' hu ht hd
  exact visible_declare? (hus u hu) hd ht

end Roster

/-- The names in the clause of one kind of a declaration. -/
def TypeDecl.clause : Relation → TypeDecl → List String
  | .extending, .ofClass c => c.superclass.toList.map (·.name)
  | .implementing, .ofClass c => c.interfaces.map (·.name)
  | .extending, .ofInterface i => i.parents.map (·.name)
  | .implementing, .ofInterface _ => []

theorem TypeDecl.named_eq_clause (r : Relation) (d : TypeDecl) : d.named r = d.clause r := by
  cases d with
  | ofClass c => cases r <;> simp [named, parents, clause, List.filter_map, Function.comp_def]
  | ofInterface i => cases r <;> simp [named, parents, clause, List.filter_map, Function.comp_def]

/-- Of the parents of one kind, each is one that the unit may use the name in
its place for. -/
theorem Enrolled.Visible.named {e : Enrolled} (h : e.Visible) (r : Relation) :
    List.Forall₂ e.unit.MayDenote (e.unit.decl.clause r) (e.named r) := by
  rw [← TypeDecl.named_eq_clause, TypeDecl.named, Enrolled.named, List.forall₂_map_left_iff,
    List.forall₂_map_right_iff]
  have hfiltered := List.rel_filter (p := fun p => decide (p.1 = r)) (q := fun q => decide (q.1 = r))
    (fun p q hpq => by simp [hpq.1]) h
  exact hfiltered.imp fun _ _ hpq => hpq.2

namespace Graph

/-- In the graph of a whole program the parents of every declared type are one
for each name in its clauses, in order, and each is a type that the unit may use
the name for, however the edge came to lead there. -/
theorem parents_visible (us : List CompilationUnit)
    (hsimple : ∀ u ∈ us, Text.isDotted u.decl.name = false) (g : Graph) (h : ofUnits us = .ok g)
    (u : CompilationUnit) (hu : u ∈ us) :
    ∃ id, g.find? u.qualifiedName = some id ∧ (g.node id).isPlaceholder = false ∧
      List.Forall₂ (fun n p => p ∈ g.ids ∧ u.MayDenote n (g.node p).name)
        (u.decl.clause .extending) (g.node id).extended ∧
      List.Forall₂ (fun n p => p ∈ g.ids ∧ u.MayDenote n (g.node p).name)
        (u.decl.clause .implementing) (g.node id).implemented := by
  obtain ⟨t, hrun, hagrees⟩ := exists_run_of_declareAll (ofUnits_eq_ok.mp h)
  obtain ⟨e, he, rfl⟩ := List.mem_map.mp (Roster.units_of_run? hrun ▸ hu)
  obtain ⟨id, hid, hheads, hnames⟩ := hagrees.enrolled e he
  have hvisible := Roster.visible_run? hsimple hrun e he
  have hclause : ∀ r, List.Forall₂ (fun n p => p ∈ g.ids ∧ e.unit.MayDenote n (g.node p).name)
      (e.unit.decl.clause r) ((g.node id).related r) := by
    intro r
    have hnamed := hvisible.named r
    rw [← hnames r, parentNames, List.forall₂_map_right_iff] at hnamed
    refine forall₂_imp_of_mem hnamed fun n _ p hp hmay => ⟨?_, hmay⟩
    exact hagrees.sound.parent_mem hid (mem_parents_iff.mpr ⟨r, hp⟩)
  exact ⟨id, hagrees.sound.index.mpr ⟨hid, hheads.name⟩, hheads.declared, hclause .extending,
    hclause .implementing⟩

end Graph

/-- A class that names its parents before they are declared: one of a package
that it imports on demand, one that it imports, and one of its own package. -/
def scatteredClass : CompilationUnit :=
  (((CompilationUnit.of (.ofClass ⟨[], "A", some (.named "B"), [.named "I", .named "J"], [], .zero⟩))
    |>.withPackage "q").withImportOnDemand "p").withImport "r.I"

def scatteredUnits : List CompilationUnit :=
  [scatteredClass, .plainClass "p" "B" none,
    (CompilationUnit.of (.ofInterface ⟨[], "I", [], [], .zero⟩)).withPackage "r",
    (CompilationUnit.of (.ofInterface ⟨[], "J", [], [], .zero⟩)).withPackage "q"]

/-- The placeholders `B` and `J` have been folded into types that the class sees. -/
theorem scatteredUnits_parents : ∃ g id, Graph.ofUnits scatteredUnits = .ok g ∧
    g.find? "q.A" = some id ∧ g.parentNames .extending id = ["p.B"] ∧
    g.parentNames .implementing id = ["r.I", "q.J"] ∧
    List.Forall₂ (fun n p => p ∈ g.ids ∧ scatteredClass.MayDenote n (g.node p).name)
      ["B"] (g.node id).extended ∧
    List.Forall₂ (fun n p => p ∈ g.ids ∧ scatteredClass.MayDenote n (g.node p).name)
      ["I", "J"] (g.node id).implemented := by
  have hsimple : ∀ u ∈ scatteredUnits, Text.isDotted u.decl.name = false := by decide
  obtain ⟨id, hid, -, hext, himp⟩ := Graph.parents_visible scatteredUnits hsimple
    (Graph.empty.declareAll scatteredUnits).1 rfl scatteredClass List.mem_cons_self
  obtain rfl : 0 = id := Option.some.inj hid
  exact ⟨_, 0, rfl, hid, by decide, by decide, hext, himp⟩

end ClassCompiler
