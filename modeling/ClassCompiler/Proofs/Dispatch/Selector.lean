import ClassCompiler.Proofs.Dispatch.Vtables

/-!
# The selector table

Interface methods have columns, one for each signature that some interface
declares, however many do. The columns are made by noting the declarations one
after another, in the order of the units; so the types of a column come in
order, and each once.

A call through an interface finds its routine in the row of the object's class
and the column of the signature. It is there exactly if the class leads up to
an interface that declares the method and has code for it, and it is the
routine in the vtable's slot, wherever on the chain of superclasses that comes
from. So calls through the interface and through the class enter one routine.

Key definitions: `CompilationUnit.InterfaceDeclares`, `InterfaceSlot.declarers`,
`InterfaceSlot.Columns`, `Layout.declarations`.

Key theorems: `InterfaceSlot.Columns.add`, `InterfaceSlot.Columns.foldl`,
`Layout.selectorCell_eq_some`, `Layout.selector_agrees_with_vtables`.
-/

namespace ClassCompiler

/-- A unit declares an interface with a method of a signature. -/
def CompilationUnit.InterfaceDeclares (u : CompilationUnit) (s : Signature) : Prop :=
  ∃ i : InterfaceDecl, u.decl = .ofInterface i ∧
    ∃ m ∈ i.methods, Method.signatureOf m.name m.parameters = s

theorem CompilationUnit.Describes.interfaceDeclares_iff {u : CompilationUnit} {n : TypeNode}
    (h : u.Describes n) {s : Signature} :
    u.InterfaceDeclares s ↔ n.isInterface = true ∧ ∃ m ∈ n.methods, m.signature = s := by
  have hmethods : n.methods = u.decl.methods u.qualifiedName := congrArg (·.methods) h.bare
  rw [InterfaceDeclares, TypeNode.isInterface, h.kind, hmethods]
  rcases u.decl with c | i
  · simp [TypeDecl.kind]
  · simp [TypeDecl.kind, TypeDecl.methods, Method.ofDecl]

/-! ### Columns -/

namespace InterfaceSlot

variable {slots : List InterfaceSlot} {noted : List (Nat × Signature)} {s : Signature} {i : Nat}

/-- The interfaces that declare a signature. -/
def declarers : List InterfaceSlot → Signature → List Nat
  | [], _ => []
  | slot :: rest, s => if slot.signature = s then slot.declaredBy else declarers rest s

theorem declarers_of_mem : ∀ {slots : List InterfaceSlot}, (slots.map (·.signature)).Nodup →
    ∀ slot ∈ slots, declarers slots slot.signature = slot.declaredBy
  | [], _, _, hmem => by cases hmem
  | first :: rest, h, slot, hmem => by
    obtain ⟨hfirst, h⟩ := List.nodup_cons.mp h
    rcases List.mem_cons.mp hmem with rfl | hmem
    · rw [declarers, if_pos rfl]
    · have hne : first.signature ≠ slot.signature :=
        fun he => hfirst (List.mem_map.mpr ⟨slot, hmem, he.symm⟩)
      rw [declarers, if_neg hne, declarers_of_mem h slot hmem]

theorem signatures_add : ∀ slots : List InterfaceSlot,
    (add i slots s).map (·.signature) = if s ∈ slots.map (·.signature) then slots.map (·.signature)
      else slots.map (·.signature) ++ [s]
  | [] => rfl
  | slot :: rest => by
    rw [add]
    by_cases h : slot.signature = s
    · simp [h]
    · have h' : ¬ s = slot.signature := fun e => h e.symm
      simp only [h, ↓reduceIte, List.map_cons, signatures_add rest, List.mem_cons, h', false_or]
      split <;> simp

/-- The interface is noted at its signature, unless it has been before. -/
theorem declarers_add_self : ∀ slots : List InterfaceSlot,
    declarers (add i slots s) s =
      if i ∈ declarers slots s then declarers slots s else declarers slots s ++ [i]
  | [] => by simp [add, declarers]
  | slot :: rest => by
    rw [add, declarers]
    by_cases h : slot.signature = s
    · simp [h, declarers]
    · rw [if_neg h, if_neg h, declarers, if_neg h, declarers_add_self rest]

theorem declarers_add_ne {s' : Signature} (hne : s' ≠ s) : ∀ slots : List InterfaceSlot,
    declarers (add i slots s) s' = declarers slots s'
  | [] => by simp [add, declarers, Ne.symm hne]
  | slot :: rest => by
    rw [add, declarers]
    by_cases h : slot.signature = s
    · have h' : slot.signature ≠ s' := fun e => hne (e.symm.trans h)
      rw [if_pos h, declarers, if_neg h', if_neg h']
    · rw [if_neg h, declarers, declarers_add_ne hne rest]

/-- The columns for the declarations that have been noted. -/
structure Columns (slots : List InterfaceSlot) (noted : List (Nat × Signature)) : Prop where
  nodup : (slots.map (·.signature)).Nodup
  signatures : ∀ s, s ∈ slots.map (·.signature) ↔ ∃ i, (i, s) ∈ noted
  declarers : ∀ s i, i ∈ declarers slots s ↔ (i, s) ∈ noted
  sorted : ∀ s, (InterfaceSlot.declarers slots s).Pairwise (· < ·)

namespace Columns

theorem nil : Columns [] [] := by
  refine ⟨List.nodup_nil, ?_, ?_, fun _ => .nil⟩
  · simp
  · simp [InterfaceSlot.declarers]

/-- One more declaration, by a type that is not before those noted so far. -/
theorem add (h : Columns slots noted) (hi : ∀ p ∈ noted, p.1 ≤ i) :
    Columns (InterfaceSlot.add i slots s) (noted ++ [(i, s)]) := by
  refine ⟨?_, ?_, ?_, ?_⟩
  · rw [signatures_add]
    exact nodup_ite_concat h.nodup
  · intro s'
    rw [signatures_add, mem_ite_concat, h.signatures]
    simp only [List.mem_append, List.mem_singleton, Prod.mk.injEq, exists_or, exists_and_right,
      exists_eq, true_and]
  · intro s' j
    by_cases hs : s' = s
    · subst hs
      rw [declarers_add_self, mem_ite_concat, h.declarers]
      simp
    · rw [declarers_add_ne hs, h.declarers]
      simp [hs]
  · intro s'
    by_cases hs : s' = s
    · subst hs
      rw [declarers_add_self]
      split
      · exact h.sorted s'
      · rename_i hnew
        refine List.pairwise_append.mpr ⟨h.sorted s', List.pairwise_singleton _ _, ?_⟩
        intro j hj i' hi'
        rw [List.mem_singleton.mp hi']
        have hle := hi _ ((h.declarers s' j).mp hj)
        have hne : j ≠ i := fun he => hnew (he ▸ hj)
        omega
    · rw [declarers_add_ne hs]
      exact h.sorted s'

/-- All declarations, in the order of their types. -/
theorem foldl : ∀ {rest noted : List (Nat × Signature)} {slots : List InterfaceSlot},
    Columns slots noted → (noted ++ rest).Pairwise (fun p q => p.1 ≤ q.1) →
    Columns (rest.foldl (fun slots p => InterfaceSlot.add p.1 slots p.2) slots) (noted ++ rest)
  | [], noted, slots, h, _ => by rwa [List.append_nil]
  | (i, s) :: rest, noted, slots, h, hsorted => by
    have hi : ∀ p ∈ noted, p.1 ≤ i := fun p hp =>
      (List.pairwise_append.mp hsorted).2.2 p hp (i, s) List.mem_cons_self
    rw [← List.singleton_append, ← List.append_assoc] at hsorted ⊢
    exact foldl (h.add hi) hsorted

end Columns
end InterfaceSlot

namespace Vtable

variable {vtable : List VtableEntry} {s : Signature} {e : VtableEntry}

/-- Where no two slots have one signature, a search finds whatever is there. -/
theorem find?_eq_some {p : VtableEntry → Bool} (h : (vtable.map (·.signature)).Nodup) :
    vtable.find? (fun e => e.signature = s && p e) = some e ↔
      e ∈ vtable ∧ e.signature = s ∧ p e = true := by
  constructor
  · intro hfind
    have hp := List.find?_some hfind
    simp only [Bool.and_eq_true, decide_eq_true_eq] at hp
    exact ⟨List.mem_of_find?_eq_some hfind, hp⟩
  · rintro ⟨hmem, hs, hp⟩
    have hsome : (vtable.find? fun e => e.signature = s && p e).isSome = true :=
      List.find?_isSome.mpr ⟨e, hmem, by simp [hs, hp]⟩
    obtain ⟨e', he'⟩ := Option.isSome_iff_exists.mp hsome
    have hs' := List.find?_some he'
    simp only [Bool.and_eq_true, decide_eq_true_eq] at hs'
    have hsame := List.inj_on_of_nodup_map h (List.mem_of_find?_eq_some he') hmem (hs'.1.trans hs.symm)
    rw [he', hsame]

end Vtable

/-- What is in the slot of a signature. -/
theorem ClassLayout.exists_slot?_iff {c : ClassLayout} (h : (c.vtable.map (·.signature)).Nodup)
    {s : Signature} {e : VtableEntry} :
    (∃ k, c.slot? s = some k ∧ c.vtable[k]? = some e) ↔ e ∈ c.vtable ∧ e.signature = s := by
  constructor
  · rintro ⟨k, hk, he⟩
    obtain ⟨hlt, hs, -⟩ := List.findIdx?_eq_some_iff_getElem.mp hk
    obtain ⟨_, rfl⟩ := List.getElem?_eq_some_iff.mp he
    exact ⟨List.getElem_mem hlt, by simpa using hs⟩
  · rintro ⟨hmem, rfl⟩
    have hsome : (c.slot? e.signature).isSome = true := by
      rw [slot?, List.findIdx?_isSome, List.any_eq_true]
      exact ⟨e, hmem, by simp⟩
    obtain ⟨k, hk⟩ := Option.isSome_iff_exists.mp hsome
    obtain ⟨hlt, hs, -⟩ := List.findIdx?_eq_some_iff_getElem.mp hk
    have hsame := List.inj_on_of_nodup_map h (List.getElem_mem hlt) hmem (by simpa using hs)
    exact ⟨k, hk, hsame ▸ List.getElem?_eq_getElem hlt⟩

namespace Layout

variable {g : Graph} {us : List CompilationUnit} {ids : List TypeId} {l : Layout}
  {allowUnresolved : Bool}

/-- The signatures that interfaces declare, with the places of their types. -/
def declarations (g : Graph) (ids : List TypeId) : List (Nat × Signature) :=
  (ids.zipIdx.filter fun p => (g.node p.1).isInterface).flatMap fun p =>
    (g.node p.1).methods.map fun m => (p.2, m.signature)

theorem interfaceColumns_eq (g : Graph) (ids : List TypeId) :
    interfaceColumns g ids =
      (declarations g ids).foldl (fun slots p => InterfaceSlot.add p.1 slots p.2) [] := by
  simp only [interfaceColumns, declarations, List.foldl_flatMap, List.foldl_map]

theorem mem_declarations {i : Nat} {s : Signature} : (i, s) ∈ declarations g ids ↔
    ∃ id, ids[i]? = some id ∧ (g.node id).isInterface = true ∧
      ∃ m ∈ (g.node id).methods, m.signature = s := by
  rw [declarations, List.mem_flatMap]
  constructor
  · rintro ⟨⟨id, j⟩, hp, hm⟩
    obtain ⟨hj, hint⟩ := List.mem_filter.mp hp
    obtain ⟨m, hmem, heq⟩ := List.mem_map.mp hm
    obtain ⟨rfl, rfl⟩ := Prod.mk.inj heq
    exact ⟨id, List.mem_zipIdx_iff_getElem?.mp hj, hint, m, hmem, rfl⟩
  · rintro ⟨id, hid, hint, m, hm, rfl⟩
    refine ⟨(id, i), List.mem_filter.mpr ⟨?_, hint⟩, List.mem_map.mpr ⟨m, hm, rfl⟩⟩
    exact List.mem_zipIdx_iff_getElem?.mpr hid

theorem sorted_declarations : (declarations g ids).Pairwise fun p q => p.1 ≤ q.1 := by
  have hplaces : ids.zipIdx.Pairwise fun p q => p.2 < q.2 := by
    rw [← List.pairwise_map (f := Prod.snd), List.zipIdx_map_snd]
    exact List.pairwise_lt_range'
  rw [declarations, List.pairwise_flatMap]
  constructor
  · intro p _
    rw [List.pairwise_map]
    exact List.pairwise_of_forall fun _ _ => Nat.le_refl _
  · refine (hplaces.sublist List.filter_sublist).imp ?_
    intro p q hpq x hx y hy
    obtain ⟨_, -, rfl⟩ := List.mem_map.mp hx
    obtain ⟨_, -, rfl⟩ := List.mem_map.mp hy
    exact Nat.le_of_lt hpq

theorem columns_interfaceColumns :
    InterfaceSlot.Columns (interfaceColumns g ids) (declarations g ids) := by
  rw [interfaceColumns_eq]
  exact InterfaceSlot.Columns.nil.foldl sorted_declarations

/-- The type at a place and the unit at the place declare the same. -/
theorem mem_declarations_iff_unit (hr : g.Represents us) (hi : typeIds g us = .ok ids) {i : Nat}
    {s : Signature} :
    (i, s) ∈ declarations g ids ↔ ∃ u, us[i]? = some u ∧ u.InterfaceDeclares s := by
  rw [mem_declarations, getElem?_typeIds hi, Graph.typeAt]
  rcases hu : us[i]? with _ | u
  · simp
  · obtain ⟨id, -, hfind, hdesc⟩ := hr.find?_qualifiedName (List.mem_of_getElem? hu)
    simp [hfind, hdesc.interfaceDeclares_iff]

/-! ### Cells -/

theorem selectorCell_eq_some {row : List Bool} {c : ClassLayout} {slot : InterfaceSlot}
    {label : String} (hd : (c.vtable.map (·.signature)).Nodup) :
    selectorCell row c slot = some label ↔
      (∃ i ∈ slot.declaredBy, (row[i]?).getD false = true) ∧
      ∃ k e, c.slot? slot.signature = some k ∧ c.vtable[k]? = some e ∧ e.isAbstract = false ∧
        e.label = label := by
  have hentry : (∃ k e, c.slot? slot.signature = some k ∧ c.vtable[k]? = some e ∧
      e.isAbstract = false ∧ e.label = label) ↔
      (c.vtable.find? fun e => e.signature = slot.signature && !e.isAbstract).map (·.label) =
        some label := by
    rw [Option.map_eq_some_iff, exists_comm]
    refine exists_congr fun e => ?_
    rw [Vtable.find?_eq_some hd, Bool.not_eq_true', ← and_assoc, ← ClassLayout.exists_slot?_iff hd]
    grind
  rw [hentry, selectorCell]
  split
  · rename_i hany
    rw [List.any_eq_true] at hany
    simp only [hany, true_and]
  · rename_i hany
    rw [List.any_eq_true] at hany
    simp only [hany, false_and, reduceCtorEq]

namespace Built

variable (h : Built g us ids l) (hr : g.Represents us)
include h

theorem columns : InterfaceSlot.Columns l.interfaceSlots (declarations g ids) := by
  rw [h.slots]
  exact columns_interfaceColumns

include hr

/-- The interfaces of a column are those that declare its signature. -/
theorem mem_declaredBy {slot : InterfaceSlot} (hslot : slot ∈ l.interfaceSlots) {i : Nat} :
    i ∈ slot.declaredBy ↔ ∃ u, us[i]? = some u ∧ u.InterfaceDeclares slot.signature := by
  rw [← InterfaceSlot.declarers_of_mem h.columns.nodup slot hslot, h.columns.declarers,
    mem_declarations_iff_unit hr h.numbers]

/-- The row of a class marks an interface of a column if the class leads up to
an interface that declares its signature. -/
theorem exists_declarer_iff {c : ClassLayout} {id : Nat} (hc : ClassOf g ids c id)
    {slot : InterfaceSlot} (hslot : slot ∈ l.interfaceSlots) :
    (∃ i ∈ slot.declaredBy, (((l.subtypes[c.typeId]?).getD [])[i]?).getD false = true) ↔
      ∃ u ∈ us, u.InterfaceDeclares slot.signature ∧
        ∃ i, g.find? u.qualifiedName = some i ∧ Relation.ReflTransGen g.Parent id i := by
  have hmark : ∀ i : Nat, (((l.subtypes[c.typeId]?).getD [])[i]?).getD false = true ↔
      ∃ b, ids[i]? = some b ∧ Relation.ReflTransGen g.Parent id b := by
    intro i
    have hsub : (((l.subtypes[c.typeId]?).getD [])[i]?).getD false = l.isSubtype c.typeId i := by
      rw [isSubtype]
      rcases l.subtypes[c.typeId]? with _ | row <;> simp
    rw [hsub, h.isSubtype_iff hr, hc.place]
    simp
  have htype : ∀ {i : Nat} {u : CompilationUnit}, us[i]? = some u → ids[i]? = g.find? u.qualifiedName := by
    intro i u hu
    rw [getElem?_typeIds h.numbers, Graph.typeAt, hu]
    rfl
  constructor
  · rintro ⟨i, hi, hrow⟩
    obtain ⟨u, hu, hdecl⟩ := (h.mem_declaredBy hr hslot).mp hi
    obtain ⟨b, hb, hup⟩ := (hmark i).mp hrow
    exact ⟨u, List.mem_of_getElem? hu, hdecl, b, htype hu ▸ hb, hup⟩
  · rintro ⟨u, hu, hdecl, b, hb, hup⟩
    obtain ⟨i, hi⟩ := List.mem_iff_getElem?.mp hu
    exact ⟨i, (h.mem_declaredBy hr hslot).mpr ⟨u, hi, hdecl⟩,
      (hmark i).mpr ⟨b, (htype hi).trans hb, hup⟩⟩

end Built

/-- Every interface method has one column, with the interfaces that declare it;
and a class has a routine in the column exactly if it leads up to one of them
and has code for the method, namely the routine of its vtable. -/
theorem selector_agrees_with_vtables (us : List CompilationUnit) (allowUnresolved : Bool) (g : Graph)
    (h : check us allowUnresolved = .ok g) :
    ∃ l, ofGraph g us = .ok l ∧
      ((l.interfaceSlots.map (·.signature)).Nodup ∧
        ∀ s, s ∈ l.interfaceSlots.map (·.signature) ↔ ∃ u ∈ us, u.InterfaceDeclares s) ∧
      (∀ slot ∈ l.interfaceSlots, slot.declaredBy.Pairwise (· < ·) ∧
        ∀ i, i ∈ slot.declaredBy ↔ ∃ u, us[i]? = some u ∧ u.InterfaceDeclares slot.signature) ∧
      (l.classes.map (·.name) = (us.filter fun u => u.decl.kind = .ofClass).map (·.qualifiedName) ∧
        l.selector.length = l.classes.length ∧
        ∀ row ∈ l.selector, row.length = l.interfaceSlots.length) ∧
      ∀ c ∈ l.classes, ∃ id row, g.find? c.name = some id ∧ l.classes[c.classId]? = some c ∧
        l.selector[c.classId]? = some row ∧
        ∀ (j : Nat) (slot : InterfaceSlot), l.interfaceSlots[j]? = some slot →
          ∃ cell, row[j]? = some cell ∧ ∀ label,
            cell = some label ↔
              (∃ u ∈ us, u.InterfaceDeclares slot.signature ∧
                ∃ i, g.find? u.qualifiedName = some i ∧ Relation.ReflTransGen g.Parent id i) ∧
              ∃ k e, c.slot? slot.signature = some k ∧ c.vtable[k]? = some e ∧
                e.isAbstract = false ∧ e.label = label := by
  obtain ⟨hr, hl⟩ := represents_of_check h
  obtain ⟨l, ids, hok, hb⟩ := exists_ofGraph hr hl
  have hcols := hb.columns
  refine ⟨l, hok, ⟨hcols.nodup, ?_⟩, ?_, ⟨hb.names_classes hr, ?_, ?_⟩, ?_⟩
  · intro s
    rw [hcols.signatures]
    simp only [mem_declarations_iff_unit hr hb.numbers, List.mem_iff_getElem?]
    grind
  · intro slot hslot
    refine ⟨?_, fun i => hb.mem_declaredBy hr hslot⟩
    rw [← InterfaceSlot.declarers_of_mem hcols.nodup slot hslot]
    exact hcols.sorted slot.signature
  · rw [hb.selector, List.length_map]
  · intro row hrow
    rw [hb.selector] at hrow
    obtain ⟨c, -, rfl⟩ := List.mem_map.mp hrow
    exact List.length_map _
  · intro c hc
    obtain ⟨id, hcof⟩ := hb.exists_classOf hr hc
    have hplace := hb.getElem?_classId hc
    refine ⟨id, _, hcof.find, hplace, by rw [hb.selector, List.getElem?_map, hplace]; rfl, ?_⟩
    intro j slot hslot
    refine ⟨_, by rw [List.getElem?_map, hslot]; rfl, fun label => ?_⟩
    rw [selectorCell_eq_some (hcof.vtable.nodup hr.sound hl hcof.live),
      hb.exists_declarer_iff hr hcof (List.mem_of_getElem? hslot)]

end Layout

/-- An interface of the unnamed package with methods of no parameters. -/
def CompilationUnit.interfaceDeclaring (name : String) (methods : List String) : CompilationUnit :=
  of (.ofInterface ⟨[], name, [], methods.map fun m => ⟨[], none, m, [], none, .zero⟩, .zero⟩)

/-- A class that implements an interface with a method of its superclass, which
does not implement it. Another interface declares the method as well. -/
def sharedUnits : List CompilationUnit :=
  [.classDeclaring "B" (some "A") ["I"] [([], "f")], .interfaceDeclaring "I" ["g"],
    .classDeclaring "A" none [] [([], "f"), ([], "g")], .interfaceDeclaring "J" ["h", "g"]]

theorem sharedUnits_selector : ∃ g l, check sharedUnits false = .ok g ∧
    Layout.ofGraph g sharedUnits = .ok l ∧
    l.interfaceSlots = [⟨⟨"g", []⟩, [1, 3]⟩, ⟨⟨"h", []⟩, [3]⟩] ∧
    ∃ c ∈ l.classes, c.name = "B" ∧ ∃ row, l.selector[c.classId]? = some row ∧
      row[0]? = some (some (Symbol.ofMethod "A" ⟨"g", []⟩)) := by
  let g := (Graph.empty.declareAll sharedUnits).1
  obtain ⟨l, hok, -, -, -, hcells⟩ := Layout.selector_agrees_with_vtables sharedUnits false g rfl
  have hslots : l.interfaceSlots = [⟨⟨"g", []⟩, [1, 3]⟩, ⟨⟨"h", []⟩, [3]⟩] := by
    cases hok
    rfl
  obtain ⟨c, hc, hname, hslot, he⟩ : ∃ c ∈ l.classes, c.name = "B" ∧ c.slot? ⟨"g", []⟩ = some 1 ∧
      c.vtable[1]? = some ⟨⟨"g", []⟩, "A", Symbol.ofMethod "A" ⟨"g", []⟩, false⟩ := by
    cases hok
    exact ⟨_, List.mem_cons_self, rfl, rfl, rfl⟩
  obtain ⟨id, row, hid, -, hrow, hcell⟩ := hcells c hc
  rw [hname] at hid
  obtain rfl : 0 = id := Option.some.inj hid
  obtain ⟨cell, hj, hlabel⟩ := hcell 0 ⟨⟨"g", []⟩, [1, 3]⟩ (by rw [hslots]; rfl)
  refine ⟨g, l, rfl, hok, hslots, c, hc, hname, row, hrow, ?_⟩
  rw [hj, Option.some.injEq, hlabel]
  refine ⟨⟨.interfaceDeclaring "I" ["g"], by simp [sharedUnits], ?_⟩, 1, _, hslot, he, rfl, rfl⟩
  exact ⟨⟨_, rfl, _, List.mem_cons_self, rfl⟩, 2, rfl, .single (by decide)⟩

end ClassCompiler
