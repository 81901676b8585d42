import ClassCompiler.Proofs.Dispatch.Vtables

/-!
# Layouts of unlawful programs

Units that build a graph have a layout unless a class of theirs has no vtable,
and a class has none exactly if its chain of superclasses loops. A class that
merely leads into a cycle fails as well, and every other class has a vtable.

Key theorems: `Layout.plainClassLayouts_eq_error`, `Layout.ofGraph_fails_iff_loops`.
-/

namespace ClassCompiler

namespace Layout

variable {g : Graph} {us : List CompilationUnit} {ids : List TypeId}

/-- The classes fail where one of them has no vtable. -/
theorem plainClassLayouts_eq_error : ∀ {ids : List TypeId} {t k : Nat} {e : Error},
    plainClassLayouts g t k ids = .error e →
    ∃ id ∈ ids, (g.node id).isClass = true ∧ g.vtable id = .error e
  | [], _, _, _, h => by cases h
  | id :: ids, t, k, e, h => by
    rw [plainClassLayouts] at h
    split at h
    · rename_i hclass
      split at h
      · rename_i e' hvtable
        cases h
        exact ⟨id, List.mem_cons_self, hclass, hvtable⟩
      · split at h
        · rename_i e' hrest
          cases h
          obtain ⟨id', hid', hfails⟩ := plainClassLayouts_eq_error hrest
          exact ⟨id', List.mem_cons_of_mem _ hid', hfails⟩
        · cases h
    · obtain ⟨id', hid', hfails⟩ := plainClassLayouts_eq_error h
      exact ⟨id', List.mem_cons_of_mem _ hid', hfails⟩

/-- Where the classes have layouts, each of them has a vtable. -/
theorem exists_vtable_of_plainClassLayouts : ∀ {ids : List TypeId} {t k : Nat} {cs : List ClassLayout},
    plainClassLayouts g t k ids = .ok cs → ∀ id ∈ ids, (g.node id).isClass = true →
    ∃ v, g.vtable id = .ok v
  | [], _, _, _, _, _, hid, _ => by cases hid
  | id :: ids, t, k, cs, h, id', hid', hclass' => by
    rw [plainClassLayouts] at h
    split at h
    · split at h
      · cases h
      · rename_i v hvtable
        split at h
        · cases h
        · rename_i rest hrest
          rcases List.mem_cons.mp hid' with rfl | hid'
          · exact ⟨v, hvtable⟩
          · exact exists_vtable_of_plainClassLayouts hrest id' hid' hclass'
    · rename_i hclass
      rcases List.mem_cons.mp hid' with rfl | hid'
      · exact absurd hclass' hclass
      · exact exists_vtable_of_plainClassLayouts h id' hid' hclass'

/-- All that can fail in the layout of units that build a graph is a vtable. -/
theorem ofGraph_eq_error (hr : g.Represents us) {e : Error} (h : ofGraph g us = .error e) :
    ∃ u ∈ us, u.decl.kind = .ofClass ∧ ∃ id, g.find? u.qualifiedName = some id ∧ g.vtable id = .error e := by
  obtain ⟨ids, hids⟩ := exists_typeIds fun u hu => by
    obtain ⟨id, -, hfind, -⟩ := hr.find?_qualifiedName hu
    exact ⟨id, hfind⟩
  simp only [ofGraph, hids, classLayouts_eq (.nil g)] at h
  split at h
  · rename_i e' hclasses
    cases h
    obtain ⟨id, hid, hclass, hvtable⟩ := plainClassLayouts_eq_error hclasses
    obtain ⟨hlive, hdeclared⟩ := (mem_typeIds hr hids).mp hid
    obtain ⟨u, hu, hdesc⟩ := hr.declared id hlive hdeclared
    refine ⟨u, hu, ?_, id, hr.sound.index.mpr ⟨hlive, hdesc.name⟩, hvtable⟩
    rw [TypeNode.isClass, hdesc.kind] at hclass
    simpa using hclass
  · cases h

theorem exists_vtable_of_ofGraph (hr : g.Represents us) {l : Layout} (h : ofGraph g us = .ok l)
    {u : CompilationUnit} (hu : u ∈ us) (hkind : u.decl.kind = .ofClass) {id : TypeId}
    (hfind : g.find? u.qualifiedName = some id) : ∃ v, g.vtable id = .ok v := by
  obtain ⟨ids, hb⟩ := built_of_ofGraph h
  obtain ⟨id', hlive, hfind', hdesc⟩ := hr.find?_qualifiedName hu
  obtain rfl := Option.some.inj (hfind.symm.trans hfind')
  have hid := (mem_typeIds hr hb.numbers).mpr ⟨hlive, hdesc.isPlaceholder⟩
  have hclass : (g.node id).isClass = true := by
    rw [TypeNode.isClass, hdesc.kind, hkind]
    rfl
  exact exists_vtable_of_plainClassLayouts hb.classes id hid hclass

/-- Units that build a graph have a layout, unless the chain of superclasses
from one of their classes loops; then the error names a type on a cycle. The
bound on the length of a chain is never what ends it. -/
theorem ofGraph_fails_iff_loops (us : List CompilationUnit) (g : Graph) (hg : Graph.ofUnits us = .ok g) :
    ((∃ e, ofGraph g us = .error e) ↔
      ∃ u ∈ us, u.decl.kind = .ofClass ∧ ∃ id, g.find? u.qualifiedName = some id ∧ g.Loops id) ∧
    (∀ e, ofGraph g us = .error e → ∃ c, e = .internal (.cyclicSuperclasses (g.node c).name) ∧
      Relation.TransGen g.Superclass c c ∧
      ∃ u ∈ us, u.decl.kind = .ofClass ∧
        ∃ id, g.find? u.qualifiedName = some id ∧ Relation.ReflTransGen g.Superclass id c) ∧
    (∀ allowUnresolved, check us allowUnresolved = .ok g → ∃ l, ofGraph g us = .ok l) ∧
    (∀ id depth, g.nodes.length < depth →
      g.superclassChain depth [] id = g.superclassChain (g.nodes.length + 1) [] id) ∧
    ∀ memo id depth, g.nodes.length < depth →
      g.vtableOf depth memo [] id = g.vtableOf (g.nodes.length + 1) memo [] id := by
  have hr := Graph.declareAll_represents (Graph.ofUnits_eq_ok.mp hg)
  refine ⟨⟨?_, ?_⟩, ?_, ?_, ?_, ?_⟩
  · rintro ⟨e, he⟩
    obtain ⟨u, hu, hkind, id, hfind, hvtable⟩ := ofGraph_eq_error hr he
    obtain ⟨met, -, hup, hcycle⟩ := Graph.cycle_of_vtable hvtable
    exact ⟨u, hu, hkind, id, hfind, met, hup, hcycle⟩
  · rintro ⟨u, hu, hkind, id, hfind, hloops⟩
    rcases hl : ofGraph g us with e | l
    · exact ⟨e, rfl⟩
    · obtain ⟨v, hv⟩ := exists_vtable_of_ofGraph hr hl hu hkind hfind
      exact absurd hloops (Graph.hasVtable_of_vtable hv).not_loops
  · intro e he
    obtain ⟨u, hu, hkind, id, hfind, hvtable⟩ := ofGraph_eq_error hr he
    obtain ⟨met, herror, hup, hcycle⟩ := Graph.cycle_of_vtable hvtable
    exact ⟨met, herror, hcycle, u, hu, hkind, id, hfind, hup⟩
  · intro allowUnresolved hcheck
    obtain ⟨l, -, hok, -⟩ := exists_ofGraph hr (represents_of_check hcheck).2
    exact ⟨l, hok⟩
  · intro id depth hdepth
    exact Graph.superclassChain_congr (.nil g id) (by simpa using hdepth) (by simp)
  · intro memo id depth hdepth
    exact Graph.vtableOf_congr (.nil g id) (by simpa using hdepth) (by simp)

end Layout

/-- A class that leads into a cycle of two classes, between a class apart from
them and the cycle. -/
def loopingUnits : List CompilationUnit :=
  [.classDeclaring "D" none [] [], .classDeclaring "C" (some "A") [] [],
    .classDeclaring "A" (some "B") [] [], .classDeclaring "B" (some "A") [] []]

theorem loopingUnits_fail : ∃ g, Graph.ofUnits loopingUnits = .ok g ∧ g.Loops 1 ∧ ¬ g.Loops 0 ∧
    ∃ e, Layout.ofGraph g loopingUnits = .error e := by
  obtain ⟨hiff, -⟩ := Layout.ofGraph_fails_iff_loops loopingUnits
    (Graph.empty.declareAll loopingUnits).1 rfl
  have hloops : (Graph.empty.declareAll loopingUnits).1.Loops 1 :=
    ⟨2, .single rfl, .head (b := 3) rfl (.single rfl)⟩
  refine ⟨_, rfl, hloops, Graph.not_loops_of_superclass?_eq_none rfl, hiff.mpr ?_⟩
  have hsecond : .classDeclaring "C" (some "A") [] [] ∈ loopingUnits :=
    List.mem_cons_of_mem _ List.mem_cons_self
  exact ⟨_, hsecond, rfl, 1, rfl, hloops⟩

end ClassCompiler
