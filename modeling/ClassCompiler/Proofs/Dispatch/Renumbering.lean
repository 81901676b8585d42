import ClassCompiler.Proofs.Dispatch.Selector

/-!
# Layouts of one program in two orders

The order of the units decides the numbers of types, classes and columns, and
nothing else. Each table of a layout is a function of names: a vtable follows
the chain of superclasses, the subtype relation follows the parents, a column
belongs to a signature, and a cell of the selector table depends on a class and
a signature. What is followed has the same names in two graphs of the same
shapes, whatever its numbers are, so two layouts that are asked by name give the
same answers.

Key definitions: `Layout.SubtypeNamed`, `Layout.DeclaredIn`, `Layout.cell?`,
`Layout.SameByName`.

Key theorems: `Graph.SameShapes.hasVtable`, `Graph.SameShapes.reaches`,
`Layout.layouts_agree_by_name`.
-/

namespace ClassCompiler
namespace Graph
namespace SameShapes

variable {g g' : Graph} (h : g.SameShapes g') (hg : g.Sound) (hg' : g'.Sound)

theorem Match.symm {id id' : Nat} (hm : Match g g' id id') : Match g' g id' id :=
  ⟨hm.2.1, hm.1, hm.2.2.symm⟩

/-- The live types of two graphs with one name. -/
theorem match_of_find? (hg : g.Sound) (hg' : g'.Sound) {name : String} {id id' : Nat}
    (hid : g.find? name = some id) (hid' : g'.find? name = some id') : Match g g' id id' := by
  obtain ⟨hlive, hname⟩ := hg.index.mp hid
  obtain ⟨hlive', hname'⟩ := hg'.index.mp hid'
  exact ⟨hlive, hlive', hname.trans hname'.symm⟩

theorem Match.unique (hg' : g'.Sound) {id id' other : Nat} (hm : Match g g' id id')
    (ho : Match g g' id other) : other = id' :=
  hg'.name_inj ho.2.1 hm.2.1 (ho.2.2.symm.trans hm.2.2)

include h

theorem shape {id id' : Nat} (hm : Match g g' id id') : g.SameShape g' id id' :=
  h.types id hm.1 id' hm.2.1 hm.2.2

theorem superclass?_eq_none {c c' : Nat} (hm : Match g g' c c') (hs : g.superclass? c = none) :
    g'.superclass? c' = none := by
  have hshape := h.shape hm
  have hclass : (g'.node c').isClass = (g.node c).isClass := by
    unfold TypeNode.isClass
    rw [hshape.kind]
  unfold superclass? at hs ⊢
  rw [hclass]
  split at hs
  · have hnil : (g.node c).extended = [] := List.head?_eq_none_iff.mp hs
    have hnames := hshape.extended
    rw [hnil, List.map_nil, eq_comm, List.map_eq_nil_iff] at hnames
    rw [hnames]
    split <;> rfl
  · rename_i hc
    rw [if_neg hc]

include hg hg'

theorem exists_superclass {c c' p : Nat} (hm : Match g g' c c') (hs : g.Superclass c p) :
    ∃ p', Match g g' p p' ∧ g'.Superclass c' p' := by
  have hshape := h.shape hm
  have hclass := isClass_of_superclass hs
  have hclass' : (g'.node c').isClass = true := by
    unfold TypeNode.isClass at hclass ⊢
    rwa [← hshape.kind]
  unfold Superclass superclass? at hs ⊢
  rw [if_pos hclass] at hs
  rw [if_pos hclass']
  -- the first names on both sides are one
  have hfirst : (g'.node c').extended.head?.map (fun p => (g'.node p).name) =
      some (g.node p).name := by
    rw [← List.head?_map, ← hshape.extended, List.head?_map, hs]
    rfl
  obtain ⟨p', hp', hname⟩ := Option.map_eq_some_iff.mp hfirst
  have hparent : p ∈ (g.node c).parents := List.mem_append_left _ (List.mem_of_mem_head? hs)
  have hparent' : p' ∈ (g'.node c').parents := List.mem_append_left _ (List.mem_of_mem_head? hp')
  exact ⟨p', ⟨hg.parent_mem hm.1 hparent, hg'.parent_mem hm.2.1 hparent', hname.symm⟩, hp'⟩

/-- A type has the same vtable in both graphs. -/
theorem hasVtable {id id' : Nat} {v : List VtableEntry} (hm : Match g g' id id')
    (hv : g.HasVtable id v) : g'.HasVtable id' v := by
  induction hv generalizing id' with
  | @first id hs =>
    rw [(h.shape hm).methods]
    exact .first (h.superclass?_eq_none hm hs)
  | @extending id p v hs _ ih =>
    obtain ⟨p', hmp, hs'⟩ := h.exists_superclass hg hg' hm hs
    rw [(h.shape hm).methods]
    exact .extending hs' (ih hmp)

/-- What a type leads up to, it leads up to in both graphs. -/
theorem reaches {a a' b b' : Nat} (ha : Match g g' a a') (hb : Match g g' b b')
    (hup : Relation.ReflTransGen g.Parent a b) : Relation.ReflTransGen g'.Parent a' b' := by
  have hstep : ∀ {c : Nat}, Relation.ReflTransGen g.Parent a c →
      ∃ c', Match g g' c c' ∧ Relation.ReflTransGen g'.Parent a' c' := by
    intro c hc
    induction hc with
    | refl => exact ⟨a', ha, .refl⟩
    | tail _ hp ih =>
      obtain ⟨d', hd, hup'⟩ := ih
      obtain ⟨c', hc, hp'⟩ := h.symm.exists_parent hg' hg hd.symm hp
      exact ⟨c', hc.symm, .tail hup' hp'⟩
  obtain ⟨c', hc, hup'⟩ := hstep hup
  rwa [hb.unique hg' hc] at hup'

end SameShapes
end Graph

namespace Layout

/-- The type of one name is a subtype of that of another. -/
def SubtypeNamed (l : Layout) (sub sup : String) : Prop :=
  ∃ i j, l.typeId? sub = some i ∧ l.typeId? sup = some j ∧ l.isSubtype i j = true

/-- The column of a signature lists the interface of a name. -/
def DeclaredIn (l : Layout) (s : Signature) (name : String) : Prop :=
  ∃ slot ∈ l.interfaceSlots, slot.signature = s ∧ ∃ i ∈ slot.declaredBy, l.types[i]? = some name

/-- The place of a signature among the columns. -/
def column? (l : Layout) (s : Signature) : Option Nat :=
  l.interfaceSlots.findIdx? fun slot => slot.signature = s

/-- The cell of the selector table for a class and a signature, if both have
places there. -/
def cell? (l : Layout) (className : String) (s : Signature) : Option (Option String) := do
  let c ← l.class? className
  let j ← l.column? s
  let row ← l.selector[c.classId]?
  row[j]?

/-- Layouts that give the same answers to whoever asks by name. -/
structure SameByName (l l' : Layout) : Prop where
  types : l'.types.Perm l.types
  vtables : (l'.classes.map fun c => (c.name, c.vtable)).Perm
    (l.classes.map fun c => (c.name, c.vtable))
  subtypes : ∀ sub sup, l.SubtypeNamed sub sup ↔ l'.SubtypeNamed sub sup
  columns : (l'.interfaceSlots.map (·.signature)).Perm (l.interfaceSlots.map (·.signature))
  declarers : ∀ s name, l.DeclaredIn s name ↔ l'.DeclaredIn s name
  cells : ∀ name s, l.cell? name s = l'.cell? name s

theorem name_of_class? {l : Layout} {name : String} {c : ClassLayout} (h : l.class? name = some c) :
    c.name = name := by
  simpa using List.find?_some h

theorem exists_of_column? {l : Layout} {s : Signature} {j : Nat} (h : l.column? s = some j) :
    ∃ slot, l.interfaceSlots[j]? = some slot ∧ slot.signature = s := by
  obtain ⟨hlt, hs, -⟩ := List.findIdx?_eq_some_iff_getElem.mp h
  exact ⟨l.interfaceSlots[j], List.getElem?_eq_getElem hlt, by simpa using hs⟩

/-- What has a cell has a row and a column. -/
theorem exists_of_cell? {l : Layout} {name : String} {s : Signature} {cell : Option String}
    (h : l.cell? name s = some cell) :
    ∃ c slot, l.class? name = some c ∧ slot ∈ l.interfaceSlots ∧ slot.signature = s := by
  simp only [cell?, Option.bind_eq_bind, Option.bind_eq_some_iff] at h
  obtain ⟨c, hc, j, hj, -⟩ := h
  obtain ⟨slot, hslot, hs⟩ := exists_of_column? hj
  exact ⟨c, slot, hc, List.mem_of_getElem? hslot, hs⟩

namespace Built

variable {g g' : Graph} {us us' : List CompilationUnit} {ids ids' : List TypeId} {l l' : Layout}
  {allowUnresolved allowUnresolved' : Bool}

/-! ### One layout by name -/

section one
variable (hb : Built g us ids l) (hr : g.Represents us)
include hb

/-- The cell of a class and a column. -/
theorem cell?_eq {name : String} {c : ClassLayout} (hc : l.class? name = some c)
    {slot : InterfaceSlot} (hslot : slot ∈ l.interfaceSlots) :
    l.cell? name slot.signature = some (selectorCell ((l.subtypes[c.typeId]?).getD []) c slot) := by
  obtain ⟨j, hj⟩ : ∃ j, l.column? slot.signature = some j := by
    rw [← Option.isSome_iff_exists, column?, List.findIdx?_isSome, List.any_eq_true]
    exact ⟨slot, hslot, by simp⟩
  obtain ⟨slot', hat, hs⟩ := exists_of_column? hj
  have hsame : slot' = slot :=
    List.inj_on_of_nodup_map hb.columns.nodup (List.mem_of_getElem? hat) hslot hs
  have hplace := hb.getElem?_classId (List.mem_of_find?_eq_some hc)
  have hrow : l.selector[c.classId]? =
      some (l.interfaceSlots.map (selectorCell ((l.subtypes[c.typeId]?).getD []) c)) := by
    rw [hb.selector, List.getElem?_map, hplace]
    rfl
  simp only [cell?, hc, hj, hrow, Option.bind_eq_bind, Option.bind_some, List.getElem?_map, hat,
    hsame, Option.map_some]

include hr

/-- The types of a layout are those of the units, in order. -/
theorem types_eq : l.types = us.map (·.qualifiedName) := by
  refine List.ext_getElem? fun i => ?_
  rw [hb.types, List.getElem?_map, getElem?_typeIds hb.numbers, Graph.typeAt, List.getElem?_map]
  rcases hu : us[i]? with _ | u
  · rfl
  · obtain ⟨id, -, hfind, hdesc⟩ := hr.find?_qualifiedName (List.mem_of_getElem? hu)
    simp [hfind, hdesc.name]

/-- The place of a name is the place of its type. -/
theorem getElem?_of_typeId? {name : String} {i : Nat} (hi : l.typeId? name = some i) :
    ∃ a, ids[i]? = some a ∧ g.find? name = some a := by
  obtain ⟨hlt, hname, -⟩ := List.findIdx?_eq_some_iff_getElem.mp hi
  have htype : l.types[i]? = some name := by
    rw [List.getElem?_eq_getElem hlt]
    simpa using hname
  rw [hb.types, List.getElem?_map, Option.map_eq_some_iff] at htype
  obtain ⟨a, ha, rfl⟩ := htype
  have hlive := ((mem_typeIds hr hb.numbers).mp (List.mem_of_getElem? ha)).1
  exact ⟨a, ha, hr.sound.find?_name hlive⟩

theorem isSome_typeId? (name : String) :
    (l.typeId? name).isSome = true ↔ name ∈ us.map (·.qualifiedName) := by
  rw [typeId?, List.findIdx?_isSome, List.any_eq_true, ← hb.types_eq hr]
  simp

/-- The subtypes by name are given by the graph. -/
theorem subtypeNamed_iff {sub sup : String} : l.SubtypeNamed sub sup ↔
    sub ∈ us.map (·.qualifiedName) ∧ sup ∈ us.map (·.qualifiedName) ∧
      ∃ a b, g.find? sub = some a ∧ g.find? sup = some b ∧ Relation.ReflTransGen g.Parent a b := by
  rw [← hb.isSome_typeId? hr, ← hb.isSome_typeId? hr, SubtypeNamed]
  constructor
  · rintro ⟨i, j, hi, hj, hsub⟩
    obtain ⟨a, ha, hfind⟩ := hb.getElem?_of_typeId? hr hi
    obtain ⟨b, hb', hfind'⟩ := hb.getElem?_of_typeId? hr hj
    obtain ⟨a', b', ha', hb'', hup⟩ := (hb.isSubtype_iff hr).mp hsub
    obtain rfl := Option.some.inj (ha.symm.trans ha')
    obtain rfl := Option.some.inj (hb'.symm.trans hb'')
    exact ⟨by rw [hi]; rfl, by rw [hj]; rfl, a, b, hfind, hfind', hup⟩
  · rintro ⟨hi, hj, a, b, hfind, hfind', hup⟩
    obtain ⟨i, hi⟩ := Option.isSome_iff_exists.mp hi
    obtain ⟨j, hj⟩ := Option.isSome_iff_exists.mp hj
    obtain ⟨a', ha, hfa⟩ := hb.getElem?_of_typeId? hr hi
    obtain ⟨b', hb', hfb⟩ := hb.getElem?_of_typeId? hr hj
    obtain rfl := Option.some.inj (hfind.symm.trans hfa)
    obtain rfl := Option.some.inj (hfind'.symm.trans hfb)
    exact ⟨i, j, hi, hj, (hb.isSubtype_iff hr).mpr ⟨a, b, ha, hb', hup⟩⟩

/-- The columns are those of the signatures that interfaces declare. -/
theorem mem_signatures {s : Signature} :
    s ∈ l.interfaceSlots.map (·.signature) ↔ ∃ u ∈ us, u.InterfaceDeclares s := by
  rw [hb.columns.signatures]
  simp only [mem_declarations_iff_unit hr hb.numbers, List.mem_iff_getElem?]
  grind

theorem declaredIn_iff {s : Signature} {name : String} :
    l.DeclaredIn s name ↔ ∃ u ∈ us, u.qualifiedName = name ∧ u.InterfaceDeclares s := by
  have htype : ∀ i : Nat, l.types[i]? = (us[i]?).map CompilationUnit.qualifiedName := by
    intro i
    rw [hb.types_eq hr, List.getElem?_map]
  constructor
  · rintro ⟨slot, hslot, rfl, i, hi, hname⟩
    obtain ⟨u, hu, hdecl⟩ := (hb.mem_declaredBy hr hslot).mp hi
    rw [htype, hu, Option.map_some, Option.some.injEq] at hname
    exact ⟨u, List.mem_of_getElem? hu, hname, hdecl⟩
  · rintro ⟨u, hu, rfl, hdecl⟩
    obtain ⟨slot, hslot, rfl⟩ := List.mem_map.mp ((hb.mem_signatures hr).mpr ⟨u, hu, hdecl⟩)
    obtain ⟨i, hi⟩ := List.mem_iff_getElem?.mp hu
    refine ⟨slot, hslot, rfl, i, (hb.mem_declaredBy hr hslot).mpr ⟨u, hi, hdecl⟩, ?_⟩
    rw [htype, hi, Option.map_some]

/-- A class has a layout if some unit declares it. -/
theorem isSome_class?_iff (name : String) : (l.class? name).isSome = true ↔
    ∃ u ∈ us, u.decl.kind = .ofClass ∧ u.qualifiedName = name := by
  have hmem : (l.class? name).isSome = true ↔ name ∈ l.classes.map (·.name) := by
    rw [class?, List.find?_isSome, List.mem_map]
    simp
  rw [hmem, hb.names_classes hr]
  simp only [List.mem_map, List.mem_filter, decide_eq_true_eq, and_assoc]

theorem nodup_names : (l.classes.map (·.name)).Nodup := by
  rw [hb.names_classes hr]
  exact hr.distinct.sublist (List.filter_sublist.map _)

theorem nodup_vtables : (l.classes.map fun c => (c.name, c.vtable)).Nodup := by
  have hnames := hb.nodup_names hr
  refine List.Nodup.of_map Prod.fst ?_
  rwa [List.map_map]

theorem class?_name {c : ClassLayout} (hc : c ∈ l.classes) : l.class? c.name = some c := by
  obtain ⟨c', hc'⟩ : ∃ c', l.class? c.name = some c' := by
    rw [← Option.isSome_iff_exists, class?, List.find?_isSome]
    exact ⟨c, hc, by simp⟩
  rw [hc', List.inj_on_of_nodup_map (hb.nodup_names hr) (List.mem_of_find?_eq_some hc') hc
    (name_of_class? hc')]

end one

/-! ### Two layouts -/

section two
variable (hb : Built g us ids l) (hb' : Built g' us' ids' l') (hr : g.Represents us)
  (hr' : g'.Represents us') (hshapes : g.SameShapes g') (hperm : us'.Perm us)

include hr hr' hshapes hperm in
/-- A class that leads up to an interface with a method does so in both graphs. -/
theorem exists_declarer_of_perm {id id' : Nat} (hm : Graph.SameShapes.Match g g' id id')
    {s : Signature}
    (h : ∃ u ∈ us, u.InterfaceDeclares s ∧
      ∃ i, g.find? u.qualifiedName = some i ∧ Relation.ReflTransGen g.Parent id i) :
    ∃ u ∈ us', u.InterfaceDeclares s ∧
      ∃ i, g'.find? u.qualifiedName = some i ∧ Relation.ReflTransGen g'.Parent id' i := by
  obtain ⟨u, hu, hdecl, i, hi, hup⟩ := h
  have hu' := hperm.mem_iff.mpr hu
  obtain ⟨i', -, hi', -⟩ := hr'.find?_qualifiedName hu'
  have hmi := Graph.SameShapes.match_of_find? hr.sound hr'.sound hi hi'
  exact ⟨u, hu', hdecl, i', hi', hshapes.reaches hr.sound hr'.sound hm hmi hup⟩

include hb hb' hr hr' hshapes hperm

theorem subtypeNamed_of_perm {sub sup : String} (h : l.SubtypeNamed sub sup) :
    l'.SubtypeNamed sub sup := by
  obtain ⟨hsub, hsup, a, b, ha, hb₁, hup⟩ := (hb.subtypeNamed_iff hr).mp h
  have hnames := hperm.map (·.qualifiedName)
  have hfind : ∀ {name : String}, name ∈ us.map (·.qualifiedName) →
      ∃ id', g'.find? name = some id' := by
    intro name hname
    obtain ⟨u, hu, rfl⟩ := List.mem_map.mp (hnames.mem_iff.mpr hname)
    obtain ⟨id', -, hid', -⟩ := hr'.find?_qualifiedName hu
    exact ⟨id', hid'⟩
  obtain ⟨a', ha'⟩ := hfind hsub
  obtain ⟨b', hb₂⟩ := hfind hsup
  have hma := Graph.SameShapes.match_of_find? hr.sound hr'.sound ha ha'
  have hmb := Graph.SameShapes.match_of_find? hr.sound hr'.sound hb₁ hb₂
  have hup' := hshapes.reaches hr.sound hr'.sound hma hmb hup
  exact (hb'.subtypeNamed_iff hr').mpr
    ⟨hnames.mem_iff.mpr hsub, hnames.mem_iff.mpr hsup, a', b', ha', hb₂, hup'⟩

/-- Classes of one name have one vtable, and the same cell for a signature. -/
theorem vtable_and_cell_of_name (hl : g.Lawful allowUnresolved) (hl' : g'.Lawful allowUnresolved')
    {c c' : ClassLayout} (hc : c ∈ l.classes) (hc' : c' ∈ l'.classes)
    (hname : c.name = c'.name) :
    c.vtable = c'.vtable ∧ ∀ slot ∈ l.interfaceSlots, ∀ slot' ∈ l'.interfaceSlots,
      slot.signature = slot'.signature →
      selectorCell ((l.subtypes[c.typeId]?).getD []) c slot =
        selectorCell ((l'.subtypes[c'.typeId]?).getD []) c' slot' := by
  obtain ⟨id, hcof⟩ := hb.exists_classOf hr hc
  obtain ⟨id', hcof'⟩ := hb'.exists_classOf hr' hc'
  have hfind : g.find? c'.name = some id := hname ▸ hcof.find
  have hm := Graph.SameShapes.match_of_find? hr.sound hr'.sound hfind hcof'.find
  have hv : c.vtable = c'.vtable :=
    (hshapes.hasVtable hr.sound hr'.sound hm hcof.vtable).unique hcof'.vtable
  refine ⟨hv, ?_⟩
  intro slot hslot slot' hslot' hs
  have hplace : c.slot? slot.signature = c'.slot? slot'.signature := by
    rw [ClassLayout.slot?, ClassLayout.slot?, hv, hs]
  have hup : (∃ u ∈ us, u.InterfaceDeclares slot.signature ∧
      ∃ i, g.find? u.qualifiedName = some i ∧ Relation.ReflTransGen g.Parent id i) ↔
      ∃ u ∈ us', u.InterfaceDeclares slot'.signature ∧
        ∃ i, g'.find? u.qualifiedName = some i ∧ Relation.ReflTransGen g'.Parent id' i := by
    rw [hs]
    exact ⟨exists_declarer_of_perm hr hr' hshapes hperm hm,
      exists_declarer_of_perm hr' hr hshapes.symm hperm.symm hm.symm⟩
  refine Option.ext fun label => ?_
  rw [selectorCell_eq_some (hcof.vtable.nodup hr.sound hl hcof.live),
    selectorCell_eq_some (hcof'.vtable.nodup hr'.sound hl' hcof'.live),
    hb.exists_declarer_iff hr hcof hslot, hb'.exists_declarer_iff hr' hcof' hslot', hup, hplace, hv]

/-- Classes of one layout are, with their vtables, those of the other. -/
theorem mem_vtables_of_perm (hl : g.Lawful allowUnresolved) (hl' : g'.Lawful allowUnresolved')
    {c : ClassLayout} (hc : c ∈ l.classes) :
    (c.name, c.vtable) ∈ l'.classes.map fun c => (c.name, c.vtable) := by
  have hname : c.name ∈ l'.classes.map (·.name) := by
    have := List.mem_map_of_mem (f := (·.name)) hc
    rw [hb.names_classes hr] at this
    rw [hb'.names_classes hr']
    exact ((hperm.filter _).map _).mem_iff.mpr this
  obtain ⟨c', hc', hsame⟩ := List.mem_map.mp hname
  have hv := (vtable_and_cell_of_name hb hb' hr hr' hshapes hperm hl hl' hc hc' hsame.symm).1
  exact List.mem_map.mpr ⟨c', hc', by rw [hsame, hv]⟩

/-- A cell that is there is there in the other layout too, with the same routine. -/
theorem cell?_of_perm (hl : g.Lawful allowUnresolved) (hl' : g'.Lawful allowUnresolved')
    {name : String} {s : Signature} {cell : Option String} (h : l.cell? name s = some cell) :
    l'.cell? name s = some cell := by
  obtain ⟨c, slot, hc, hslot, rfl⟩ := exists_of_cell? h
  obtain ⟨c', hc'⟩ : ∃ c', l'.class? name = some c' := by
    rw [← Option.isSome_iff_exists, hb'.isSome_class?_iff hr']
    obtain ⟨u, hu, hclass⟩ := (hb.isSome_class?_iff hr name).mp (by rw [hc]; rfl)
    exact ⟨u, hperm.mem_iff.mpr hu, hclass⟩
  obtain ⟨slot', hslot', hs⟩ : ∃ slot' ∈ l'.interfaceSlots, slot'.signature = slot.signature := by
    obtain ⟨u, hu, hdecl⟩ := (hb.mem_signatures hr).mp (List.mem_map_of_mem hslot)
    exact List.mem_map.mp ((hb'.mem_signatures hr').mpr ⟨u, hperm.mem_iff.mpr hu, hdecl⟩)
  have hname : c.name = c'.name := (name_of_class? hc).trans (name_of_class? hc').symm
  obtain ⟨-, hcells⟩ := vtable_and_cell_of_name hb hb' hr hr' hshapes hperm hl hl'
    (List.mem_of_find?_eq_some hc) (List.mem_of_find?_eq_some hc') hname
  have hcell := hcells slot hslot slot' hslot' hs.symm
  rw [← h, hb.cell?_eq hc hslot, hcell, ← hs, hb'.cell?_eq hc' hslot']

end two
end Built

/-- Units in two orders, with graphs of the same shapes, have layouts that agree
by name. -/
theorem layouts_agree_by_name (us us' : List CompilationUnit)
    (allowUnresolved allowUnresolved' : Bool) (g g' : Graph) (hperm : us'.Perm us)
    (h : check us allowUnresolved = .ok g) (h' : check us' allowUnresolved' = .ok g')
    (hshapes : g.SameShapes g') :
    ∃ l l', ofGraph g us = .ok l ∧ ofGraph g' us' = .ok l' ∧ l.SameByName l' ∧
      ∀ c ∈ l.classes, ∀ slot ∈ l.interfaceSlots,
        ∃ cell, l.cell? c.name slot.signature = some cell := by
  obtain ⟨hr, hl⟩ := represents_of_check h
  obtain ⟨hr', hl'⟩ := represents_of_check h'
  obtain ⟨l, ids, hok, hb⟩ := exists_ofGraph hr hl
  obtain ⟨l', ids', hok', hb'⟩ := exists_ofGraph hr' hl'
  refine ⟨l, l', hok, hok', ⟨?_, ?_, ?_, ?_, ?_, ?_⟩, ?_⟩
  · rw [hb.types_eq hr, hb'.types_eq hr']
    exact hperm.map _
  · refine (List.perm_ext_iff_of_nodup (hb'.nodup_vtables hr') (hb.nodup_vtables hr)).mpr ?_
    rintro ⟨name, v⟩
    constructor
    · intro hmem
      obtain ⟨c, hc, hsame⟩ := List.mem_map.mp hmem
      rw [← hsame]
      exact Built.mem_vtables_of_perm hb' hb hr' hr hshapes.symm hperm.symm hl' hl hc
    · intro hmem
      obtain ⟨c, hc, hsame⟩ := List.mem_map.mp hmem
      rw [← hsame]
      exact Built.mem_vtables_of_perm hb hb' hr hr' hshapes hperm hl hl' hc
  · intro sub sup
    exact ⟨Built.subtypeNamed_of_perm hb hb' hr hr' hshapes hperm,
      Built.subtypeNamed_of_perm hb' hb hr' hr hshapes.symm hperm.symm⟩
  · refine (List.perm_ext_iff_of_nodup hb'.columns.nodup hb.columns.nodup).mpr fun s => ?_
    rw [hb'.mem_signatures hr', hb.mem_signatures hr]
    simp only [hperm.mem_iff]
  · intro s name
    rw [hb.declaredIn_iff hr, hb'.declaredIn_iff hr']
    simp only [hperm.mem_iff]
  · intro name s
    refine Option.ext fun cell => ?_
    exact ⟨Built.cell?_of_perm hb hb' hr hr' hshapes hperm hl hl',
      Built.cell?_of_perm hb' hb hr' hr hshapes.symm hperm.symm hl' hl⟩
  · intro c hc slot hslot
    have hfind : l.class? c.name = some c := hb.class?_name hr hc
    exact ⟨_, hb.cell?_eq hfind hslot⟩

end Layout

/-- A class that implements an interface with a method of its superclass has
another number once the units are turned round, and so has the method's column;
the routine is found by the same names. -/
theorem sharedUnits_reverse : ∃ g g' l l', check sharedUnits false = .ok g ∧
    check sharedUnits.reverse true = .ok g' ∧ Layout.ofGraph g sharedUnits = .ok l ∧
    Layout.ofGraph g' sharedUnits.reverse = .ok l' ∧
    (l.column? ⟨"g", []⟩ = some 0 ∧ l'.column? ⟨"g", []⟩ = some 1) ∧
    ((l.class? "B").map (·.classId) = some 0 ∧ (l'.class? "B").map (·.classId) = some 1) ∧
    l.SameByName l' := by
  let g := (Graph.empty.declareAll sharedUnits).1
  let g' := (Graph.empty.declareAll sharedUnits.reverse).1
  have hshapes : g.SameShapes g' := by
    refine ⟨fun name => ?_, ?_⟩
    · show name ∈ ["B", "A", "I", "J"] ↔ name ∈ ["J", "A", "I", "B"]
      simp only [List.mem_cons, List.not_mem_nil, or_false]
      grind
    · decide +kernel
  obtain ⟨l, l', hok, hok', hsame, -⟩ := Layout.layouts_agree_by_name sharedUnits
    sharedUnits.reverse false true g g' (List.reverse_perm _) rfl rfl hshapes
  refine ⟨g, g', l, l', rfl, rfl, hok, hok', ?_, ?_, hsame⟩
  · cases hok
    cases hok'
    exact ⟨rfl, rfl⟩
  · cases hok
    cases hok'
    exact ⟨rfl, rfl⟩

end ClassCompiler
