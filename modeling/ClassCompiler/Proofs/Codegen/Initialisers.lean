import ClassCompiler.Proofs.Codegen.Linking
import ClassCompiler.Proofs.Codegen.TableRuns

/-!
# The tables in memory

One routine builds the tables of the whole program, and each class has a routine
in its own file that builds its vtable. The numbers of rows and columns come from
other parts of the layout than the rows themselves; for a layout that was built
from a graph they agree, so that each row fits the block that is asked for it.
Once a routine has returned, the cells lead to what the layout says, and of the
memory that was in use before nothing else has changed.

A block is asked for by its number of bytes, in a register: there is no code for
a table of `0x100000000` bytes or more (`Layout.Addressable`). No block is asked
for that is larger or smaller than what goes there (`Layout.tableSizes`).

Key definitions: `Layout.Rectangular`, `Layout.Addressable`, `Layout.tableSizes`, `Layout.InMemory`,
`ClassLayout.InMemory`, `ClassLayout.EndsFile`, `Allocator.stacking`.

Key theorems: `Layout.initialisers_build_layout`, from `Layout.tables_complete`,
`ClassLayout.vtable_completes` and `CompilationUnit.endsFile_of_gives`.
-/

namespace ClassCompiler

namespace Layout

/-- The tables have as many rows and columns as there are types, classes and slots. -/
structure Rectangular (l : Layout) : Prop where
  subtypes : l.subtypes.length = l.types.length
  subtypeRows : ∀ row ∈ l.subtypes, row.length = l.types.length
  classes : l.classes.length ≤ l.types.length
  selector : l.selector.length = l.classes.length
  selectorRows : ∀ row ∈ l.selector, row.length = l.interfaceSlots.length

theorem Built.rectangular {g : Graph} {us : List CompilationUnit} {ids : List TypeId} {l : Layout}
    (hb : Built g us ids l) (hr : g.Represents us) : l.Rectangular := by
  have htypes : l.types.length = ids.length := by rw [hb.types, List.length_map]
  refine ⟨?_, ?_, ?_, ?_, ?_⟩
  · rw [hb.subtypes_eq hr, List.length_map, htypes]
  · intro row hrow
    rw [hb.subtypes_eq hr] at hrow
    obtain ⟨id, -, rfl⟩ := List.mem_map.mp hrow
    rw [List.length_map, htypes]
  · have hlength := congrArg List.length (hb.names_classes hr)
    rw [List.length_map, List.length_map] at hlength
    rw [hlength, htypes, length_typeIds hb.numbers]
    exact List.length_filter_le _ us
  · rw [hb.selector, List.length_map]
  · intro row hrow
    rw [hb.selector] at hrow
    obtain ⟨c, -, rfl⟩ := List.mem_map.mp hrow
    rw [List.length_map]

/-- The numbers of bytes that the tables of the whole program need: for a row of
each of them, for the list of rows of the one and for that of the other. -/
def tableSizes (l : Layout) : List Nat :=
  [wordSize * l.types.length, wordSize * l.interfaceSlots.length, wordSize * l.classes.length]

/-- The number of bytes of each block that is asked for is a number of 32 bits. -/
structure Addressable (l : Layout) : Prop where
  types : wordSize * l.types.length < 0x100000000
  slots : wordSize * l.interfaceSlots.length < 0x100000000
  vtables : ∀ c ∈ l.classes, wordSize * c.vtable.length < 0x100000000

end Layout

/-- The word that the cell of a table leads to, by row and column. -/
def Machine.follow (symbols : String → MachineWord) (m : Machine) (table : String) (i j : Nat) :
    MachineWord :=
  m.memory (m.memory (m.memory (symbols table) + BitVec.ofNat 32 (wordSize * i)) +
    BitVec.ofNat 32 (wordSize * j))

theorem Machine.HoldsTable.follow_eq {symbols : String → MachineWord} {m : Machine}
    {heap : List Region} {table : String} {rows : List (List Word)}
    (h : m.HoldsTable symbols heap table rows) {i j : Nat} {w : Word}
    (hw : (rows[i]?).bind (fun row => row[j]?) = some w) :
    m.follow symbols table i j = w.value symbols := by
  obtain ⟨row, hi, hj⟩ := Option.bind_eq_some_iff.mp hw
  obtain ⟨tb, -, htable, -, hrows⟩ := h
  obtain ⟨b, -, hrow, hbase⟩ := hrows i row hi
  rw [Nat.zero_add] at hbase
  rw [Machine.follow, htable]
  show m.memory (m.memory (tb.word i) + _) = _
  rw [hbase]
  exact hrow.words j w hj

/-- The cells of both tables lead to what the layout says. -/
structure Layout.InMemory (l : Layout) (symbols : String → MachineWord) (m : Machine) : Prop where
  subtypes : ∀ (i j : Nat) (b : Bool), (l.subtypes[i]?).bind (fun row => row[j]?) = some b →
    m.follow symbols Symbol.subtypeTable i j = if b then 1 else 0
  selector : ∀ (i j : Nat) (cell : Option String),
    (l.selector[i]?).bind (fun row => row[j]?) = some cell →
    m.follow symbols Symbol.selectorTable i j = (cell.map symbols).getD 0

/-- The cell of a class points to a block, apart from memory in use, with the
entry points of its vtable. -/
def ClassLayout.InMemory (c : ClassLayout) (symbols : String → MachineWord) (heap : List Region)
    (m : Machine) : Prop :=
  ∃ b : Region, (∀ b' ∈ heap, b.Disjoint b') ∧ m.memory (symbols (Symbol.vtable c.name)) = b.base ∧
    wordSize * c.vtable.length ≤ b.size ∧ ∀ (i : Nat) (e : VtableEntry), c.vtable[i]? = some e →
      m.memory (b.word i) = if e.isAbstract then 0 else symbols e.label

namespace Layout

variable {l : Layout} {alloc : Allocator} {symbols : String → MachineWord} {m : Machine}
  {heap : List Region}

theorem getElem?_map_map {α β : Type} (f : α → β) (rows : List (List α)) (i j : Nat) :
    ((rows.map (·.map f))[i]?).bind (fun row => row[j]?) =
      ((rows[i]?).bind fun row => row[j]?).map f := by
  rw [List.getElem?_map]
  rcases rows[i]? with _ | row
  · rfl
  · exact List.getElem?_map

/-- The rows of the subtype table, as they are written. -/
def subtypeRows (l : Layout) : List (List Word) := l.subtypes.map (·.map subtypeWord)

/-- The rows of the selector table, as they are written. -/
def selectorRows (l : Layout) : List (List Word) := l.selector.map (·.map selectorWord)

theorem inMemory_of_holds {new new' : List Region}
    (hsub : m.HoldsTable symbols new Symbol.subtypeTable l.subtypeRows)
    (hsel : m.HoldsTable symbols new' Symbol.selectorTable l.selectorRows) :
    l.InMemory symbols m := by
  constructor
  · intro i j b hcell
    have hword : (subtypeWord b).value symbols = if b then 1 else 0 := by cases b <;> rfl
    rw [← hword]
    exact hsub.follow_eq (by rw [subtypeRows, getElem?_map_map, hcell]; rfl)
  · intro i j cell hcell
    have hword : (selectorWord cell).value symbols = (cell.map symbols).getD 0 := by
      cases cell <;> rfl
    rw [← hword]
    exact hsel.follow_eq (by rw [selectorRows, getElem?_map_map, hcell]; rfl)

/-- The routine that fills both tables. -/
def tablesRoutine (l : Layout) : Listing :=
  [.comment ("subtype table: " ++ toString l.types.length ++ " x " ++ toString l.types.length)] ++
    (fillTable Symbol.subtypeTable l.types.length l.types.length l.subtypeRows ++
      ([.comment ("selector index table: " ++ toString l.classes.length ++ " x " ++
          toString l.interfaceSlots.length)] ++
        (fillTable Symbol.selectorTable l.classes.length l.interfaceSlots.length l.selectorRows ++
          [.instr .ret])))

/-- The routine is behind lines without its label. -/
theorem goto_tablesInit (l : Layout) (symbols : String → MachineWord) (m : Machine) :
    Program.goto ⟨l.tablesListing, symbols⟩ (.symbol Symbol.tablesInit) m =
      some ⟨.label (.symbol Symbol.tablesInit) :: l.tablesRoutine, m⟩ := by
  let before : Listing := [.header "dispatch tables", .segment ".data"] ++
    exportedCell Symbol.subtypeTable ++ exportedCell Symbol.selectorTable ++
    [.blank, .segment ".text"] ++
    importedSymbols (Symbol.malloc :: l.selector.flatten.filterMap id) ++
    [.exported Symbol.tablesInit]
  have hlisting : l.tablesListing =
      before ++ .label (.symbol Symbol.tablesInit) :: l.tablesRoutine := by
    simp only [tablesListing, tablesRoutine, before, subtypeRows, selectorRows, List.append_assoc,
      List.cons_append, List.nil_append]
  refine Program.goto_of_notMem (p := ⟨l.tablesListing, symbols⟩) hlisting ?_
  simp only [before, Listing.labels_append, Listing.labels_importedSymbols]
  exact List.not_mem_nil

/-- The routine that fills the tables of the whole program. -/
theorem tables_complete (hr : l.Rectangular) (ha : l.Addressable)
    (hsub : Region.InUse heap (symbols Symbol.subtypeTable))
    (hsel : Region.InUse heap (symbols Symbol.selectorTable))
    (hne : symbols Symbol.subtypeTable ≠ symbols Symbol.selectorTable) :
    Program.CallCompletes ⟨l.tablesListing, symbols⟩ alloc Symbol.tablesInit
      [Symbol.subtypeTable, Symbol.selectorTable] l.tableSizes heap m fun m' =>
        l.InMemory symbols m' ∧ m.KeepsIn heap
          (fun x => x = symbols Symbol.subtypeTable ∨ x = symbols Symbol.selectorTable) m' := by
  have hclasses : wordSize * l.classes.length < 0x100000000 :=
    Nat.lt_of_le_of_lt (Nat.mul_le_mul_left _ hr.classes) ha.types
  have hsubWidth : ∀ row ∈ l.subtypeRows, row.length ≤ l.types.length := by
    refine List.forall_mem_map.mpr fun row hrow => ?_
    rw [List.length_map, hr.subtypeRows row hrow]
  have hselWidth : ∀ row ∈ l.selectorRows, row.length ≤ l.interfaceSlots.length := by
    refine List.forall_mem_map.mpr fun row hrow => ?_
    rw [List.length_map, hr.selectorRows row hrow]
  refine ⟨_, l.goto_tablesInit symbols m, Program.Ensures.completes ?_⟩
  refine .passed [_, _] (by simp) ?_
  refine (Program.Ensures.fillTable [] (by simp) ha.types ha.types (by simp [tableSizes])
    (by rw [subtypeRows, List.length_map, hr.subtypes]) hsubWidth hsub).bind ?_
  rintro ⟨⟨_, m₁⟩, _⟩ ⟨rfl, new, rfl, hfresh, hholds, hkept⟩
  refine .passed [_] (by simp) ?_
  refine (Program.Ensures.fillTable (new ++ []) (by simp) hclasses ha.slots (by simp [tableSizes])
    (by rw [selectorRows, List.length_map, hr.selector]) hselWidth hsel).bind ?_
  rintro s ⟨hcode, new', -, -, hholds', hkept'⟩
  rw [List.append_nil] at hkept'
  have hholds₁ := hholds.kept hfresh hsub hsel hne hkept'
  refine .done ⟨⟨[], hcode⟩, inMemory_of_holds hholds₁ hholds', ?_⟩
  intro x hx hout
  rw [hkept' x (hx.mono (List.subset_append_right new heap)) fun he => hout (.inr he)]
  exact hkept x hx fun he => hout (.inl he)

end Layout

theorem VtableEntry.word_value (e : VtableEntry) (symbols : String → MachineWord) :
    e.word.value symbols = if e.isAbstract then 0 else symbols e.label := by
  rw [VtableEntry.word]
  split <;> rfl

namespace ClassLayout

variable {alloc : Allocator} {symbols : String → MachineWord} {m : Machine} {heap : List Region}

/-- The routine that fills a vtable, behind lines without its label. -/
theorem vtableListing_eq (c : ClassLayout) (typeName : String) : ∃ before : Listing,
    before.labels = [] ∧ c.vtableListing typeName =
      before ++ .label (.symbol (Symbol.vtableInit c.name)) :: (allocate c.vtable.length ++
        ([.instr (.store (.symbol (Symbol.vtable c.name)) .eax), .instr (.mov .ebx (.reg .eax))] ++
          ((c.vtable.zipIdx.flatMap fun p => p.1.fill p.2) ++ [.instr .ret]))) := by
  let before : Listing := [.blank,
      .header ("vtable of " ++ c.name ++ ": " ++ toString c.vtable.length ++ " slots"),
      .segment ".data"] ++
    exportedCell (Symbol.vtable c.name) ++ [.segment ".text"] ++
    importedSymbols (Symbol.malloc :: c.foreignLabels typeName) ++
    [.exported (Symbol.vtableInit c.name)]
  refine ⟨before, ?_, ?_⟩
  · simp only [before, Listing.labels_append, Listing.labels_importedSymbols]
    rfl
  · simp only [vtableListing, before, List.append_assoc, List.cons_append, List.nil_append]

/-- The last lines of a file are those of the vtable of a class, and the label of
the routine that fills it is not in the lines before. -/
def EndsFile (c : ClassLayout) (file : Listing) : Prop :=
  ∃ front, file = front ++ c.vtableListing c.name ∧
    .symbol (Symbol.vtableInit c.name) ∉ front.labels

/-- The routine that fills the vtable of a class. -/
theorem vtable_completes {c : ClassLayout}
    (hfits : wordSize * c.vtable.length < 0x100000000)
    (hcell : Region.InUse heap (symbols (Symbol.vtable c.name))) {file : Listing}
    (hfile : c.EndsFile file) :
    Program.CallCompletes ⟨file, symbols⟩ alloc (Symbol.vtableInit c.name) [Symbol.vtable c.name]
      [wordSize * c.vtable.length] heap m fun m' => c.InMemory symbols heap m' ∧
        m.KeepsIn heap (· = symbols (Symbol.vtable c.name)) m' := by
  obtain ⟨front, rfl, hfront⟩ := hfile
  obtain ⟨before, hbefore, hlisting⟩ := c.vtableListing_eq c.name
  have hnone : .symbol (Symbol.vtableInit c.name) ∉ (front ++ before).labels := by
    rwa [Listing.labels_append, hbefore, List.append_nil]
  have hlines := congrArg (front ++ ·) hlisting
  simp only [← List.append_assoc front] at hlines
  refine ⟨_, Program.goto_of_notMem hlines hnone, Program.Ensures.completes ?_⟩
  refine .passed [_] (by simp) (.allocate hfits (by simp) fun m₁ b hsize hbase hfresh hkept => ?_)
  -- the machine that has the cell filled, and the one that has the address kept
  let m₂ := m₁.setMem (symbols (Symbol.vtable c.name)) b.base
  let m₃ := m₂.setReg .ebx b.base
  have hstore : m₁.exec symbols (.store (.symbol (Symbol.vtable c.name)) .eax) = some m₂ :=
    congrArg (fun w => some (m₁.setMem (symbols (Symbol.vtable c.name)) w)) hbase
  have hmove : m₂.exec symbols (.mov .ebx (.reg .eax)) = some m₃ :=
    congrArg (fun w => some (m₂.setReg .ebx w)) hbase
  have hbase₃ : m₃.registers .ebx = b.base := rfl
  refine .instr (by simp [Process.StoresWithin, Process.Owns]) hstore (.instr trivial hmove ?_)
  refine (Program.Ensures.fillRegion [] .ebx
    (fun x => [.comment ("slot " ++ toString x.2 ++ ": " ++ x.1.signature.text)]) VtableEntry.word
    (by simp) hfresh c.vtable hbase₃ hsize.ge).bind ?_
  rintro s ⟨hcode, -, hrow, hrest⟩
  have hpointer : s.machine.memory (symbols (Symbol.vtable c.name)) = b.base := by
    rw [hrest _ hcell not_false]
    exact if_pos rfl
  refine .done ⟨⟨[], hcode⟩, ⟨b, hfresh, hpointer, hsize.ge, fun i e he => ?_⟩, ?_⟩
  · rw [← e.word_value]
    exact hrow.words i e.word (by rw [List.getElem?_map, he]; rfl)
  · intro x hx hne
    rw [hrest x hx not_false]
    exact (if_neg hne).trans (hkept x hx not_false)

end ClassLayout

/-- The file of a class whose names are identifiers ends with its vtable: the
members before it have other labels. -/
theorem CompilationUnit.endsFile_of_gives {l : Layout} {u : CompilationUnit} {d : ClassDecl}
    (hd : u.decl = .ofClass d) (hu : u.isWellNamed = true) {n n' : Nat} {file : Listing} {x : Unit}
    (h : (u.emit l).Gives n file n' x) :
    ∃ c ∈ l.classes, c.name = u.qualifiedName ∧ c.EndsFile file := by
  rcases code_of_gives h with ⟨i, hd', -⟩ | ⟨d', c, code, k, hd', hc, hcode, rfl⟩
  · cases hd.symm.trans hd'
  obtain rfl : d = d' := TypeDecl.ofClass.inj (hd.symm.trans hd')
  have hname : c.name = u.qualifiedName := by simpa using List.find?_some hc
  refine ⟨c, List.mem_of_find?_eq_some hc, hname,
    [.header u.qualifiedName, .segment ".text"] ++ code, by rw [hname, List.append_assoc], ?_⟩
  intro hlabel
  have hlabel' : .symbol (Symbol.vtableInit c.name) ∈ code.labels := hlabel
  have hsymbol := Listing.mem_names.mpr (Listing.mem_definitions_of_mem_labels hlabel')
  rw [(Member.each_of_gives hcode).1.names] at hsymbol
  obtain ⟨r, hr, hsame⟩ := List.mem_map.mp hsymbol
  have hmem : r ∈ u.referents := by
    simp only [referents, hd]
    exact List.mem_append_left _ hr
  have hinit : .vtableInit c.name ∈ u.referents := by
    simp [referents, hd, hname]
  obtain rfl : r = .vtableInit c.name := Referent.symbol_inj
    (isWellNamed_of_mem_referents hu hmem) (isWellNamed_of_mem_referents hu hinit) hsame
  obtain ⟨member, -, hreferent⟩ := List.mem_filterMap.mp hr
  rcases Member.referent?_cases hreferent with ⟨m, -, he⟩ | ⟨k, -, he⟩ <;> cases he

/-! ### An allocator that never gives memory back -/

/-- The first address behind all memory in use. -/
def Region.top (heap : List Region) : Nat :=
  heap.foldr (fun b n => max (b.base.toNat + b.size) n) 0

theorem Region.le_top : ∀ {heap : List Region} {b : Region}, b ∈ heap →
    b.base.toNat + b.size ≤ top heap
  | a :: heap, b, h => by
    rw [top, List.foldr_cons]
    rcases List.mem_cons.mp h with rfl | h
    · exact Nat.le_max_left _ _
    · exact Nat.le_trans (le_top h) (Nat.le_max_right _ _)

/-- Blocks one behind the other. All registers but one are cleared. -/
def Allocator.stacking : Allocator where
  run heap m :=
    let base := BitVec.ofNat 32 (Region.top heap)
    let size := (m.registers .eax).toNat
    if h : Region.top heap + size ≤ 0xffffffff then
      some ({ m with registers := fun r => if r = .eax then base else 0 },
        ⟨base, size, by rw [BitVec.toNat_ofNat]; omega⟩)
    else none
  sound := by
    intro heap m m' b hrun
    simp only at hrun
    split at hrun
    · rename_i hroom
      cases hrun
      refine ⟨rfl, rfl, fun b' hb' n hn _ _ hlt => ?_, fun _ _ => rfl⟩
      have htop := Region.le_top hb'
      rw [BitVec.toNat_ofNat] at hn
      omega
    · cases hrun

/-! ### The routines of a program -/

namespace Layout

/-- The routines that build the tables of a program that passes the check leave
them in memory as its layout has them, whatever routine allocates the memory. -/
theorem initialisers_build_layout (us : List CompilationUnit) (allowUnresolved : Bool) (g : Graph)
    (h : check us allowUnresolved = .ok g) :
    ∃ l, ofGraph g us = .ok l ∧ l.Rectangular ∧
      (l.Addressable → ∀ (alloc : Allocator) (symbols : String → MachineWord) (m : Machine)
        (heap : List Region),
        (Region.InUse heap (symbols Symbol.subtypeTable) →
          Region.InUse heap (symbols Symbol.selectorTable) →
          symbols Symbol.subtypeTable ≠ symbols Symbol.selectorTable →
          Program.CallCompletes ⟨l.tablesListing, symbols⟩ alloc Symbol.tablesInit
            [Symbol.subtypeTable, Symbol.selectorTable] l.tableSizes heap m fun m' =>
              l.InMemory symbols m' ∧ m.KeepsIn heap
                (fun x => x = symbols Symbol.subtypeTable ∨ x = symbols Symbol.selectorTable) m') ∧
        ∀ c ∈ l.classes, Region.InUse heap (symbols (Symbol.vtable c.name)) →
          ∀ file, c.EndsFile file →
          Program.CallCompletes ⟨file, symbols⟩ alloc (Symbol.vtableInit c.name)
            [Symbol.vtable c.name] [wordSize * c.vtable.length] heap m fun m' => c.InMemory symbols heap m' ∧
              m.KeepsIn heap (· = symbols (Symbol.vtable c.name)) m') ∧
      (∀ c ∈ l.classes, c.EndsFile (c.vtableListing c.name)) ∧
      ∀ (u : CompilationUnit) (d : ClassDecl) (n n' : Nat) (file : Listing), u.decl = .ofClass d →
        u.isWellNamed = true → (u.emit l).Gives n file n' () →
        ∃ c ∈ l.classes, c.name = u.qualifiedName ∧ c.EndsFile file := by
  obtain ⟨hr, hl⟩ := represents_of_check h
  obtain ⟨l, ids, hok, hb⟩ := exists_ofGraph hr hl
  refine ⟨l, hok, hb.rectangular hr, ?_, ?_, ?_⟩
  · intro ha alloc symbols m heap
    refine ⟨tables_complete (hb.rectangular hr) ha, fun c hc hcell file hfile => ?_⟩
    exact ClassLayout.vtable_completes (ha.vtables c hc) hcell hfile
  · exact fun c _ => ⟨[], rfl, List.not_mem_nil⟩
  · exact fun u d n n' file hd hu hgives => CompilationUnit.endsFile_of_gives hd hu hgives

end Layout

/-- Where the cells and routines of `linkedUnits` are: the cells in a row. -/
def linkedSymbols (s : String) : MachineWord :=
  if s = Symbol.subtypeTable then 0x1000 else if s = Symbol.selectorTable then 0x1004
  else if s = Symbol.vtable "p.B" then 0x1008 else if s = "p_A_g" then 0x2000 else 0x3000

def linkedHeap : List Region := [⟨0x1000, 12, by decide⟩]

/-- A machine that has not done anything yet. -/
def idleMachine : Machine := ⟨fun _ => 0, fun _ => 0, none⟩

def linkedGraph : Graph := (Graph.empty.declareAll linkedUnits).1

def linkedLayout : Layout :=
  match Layout.ofGraph linkedGraph linkedUnits with
  | .ok l => l
  | .error _ => ⟨[], [], [], [], []⟩

/-- The search for supertypes is not a structural recursion: the tables are
evaluated before the routine that fills them is run. -/
theorem selector_linkedLayout :
    linkedLayout.selector = [[some "p_A_g", some "p_B_f"], [none, none]] := by
  have hlayout : Layout.ofGraph linkedGraph linkedUnits = .ok linkedLayout := rfl
  obtain ⟨ids, hb⟩ := Layout.built_of_ofGraph hlayout
  obtain rfl : [0, 3, 4] = ids := Except.ok.inj hb.numbers
  have hclass : (linkedGraph.node 0).parents = [4, 3] := by decide +kernel
  have hinterface : (linkedGraph.node 3).parents = [] := by decide +kernel
  have hsuperclass : (linkedGraph.node 4).parents = [] := by decide +kernel
  have hsubtypes : linkedLayout.subtypes =
      [[true, true, true], [false, true, false], [false, false, true]] := by
    rw [hb.subtypes]
    simp [Graph.supertypes, Graph.ascend, hclass, hinterface, hsuperclass, Layout.subtypeRow]
  rw [hb.selector, hsubtypes]
  decide +kernel

/-- The routine for the tables asks for a block for each table and each row. -/
theorem tables_linkedLayout : ∃ s,
    (Program.goto ⟨linkedLayout.tablesListing, linkedSymbols⟩ (.symbol Symbol.tablesInit)
      idleMachine).bind (fun start => Program.runFor ⟨linkedLayout.tablesListing, linkedSymbols⟩
        .stacking 42 ⟨start, linkedHeap⟩) = some s ∧
    (s.code, s.heap.map (·.size)) = ([.instr .ret], [8, 8, 8, 12, 12, 12, 12, 12]) := by
  rw [linkedLayout.goto_tablesInit, Layout.tablesRoutine, Layout.selectorRows, selector_linkedLayout]
  exact Option.map_eq_some_iff.mp (by decide +kernel)

/-- The routine for the vtable of a subclass is in the file of its unit. -/
theorem vtable_linkedLayout : ∃ u d file n, u ∈ linkedUnits ∧ u.decl = .ofClass d ∧
    u.qualifiedName = "p.B" ∧ u.isWellNamed = true ∧ (u.emit linkedLayout).Gives 0 file n () ∧
    ∃ s, (Program.goto ⟨file, linkedSymbols⟩ (.symbol (Symbol.vtableInit "p.B")) idleMachine).bind
        (fun start => Program.runFor ⟨file, linkedSymbols⟩ .stacking 11 ⟨start, linkedHeap⟩) =
        some s ∧ s.code = [.instr .ret] := by
  refine ⟨_, _, _, _, List.mem_cons_self, rfl, rfl, by decide,
    (congrFun (CompilationUnit.emit_eq _ _) 0).trans rfl, ?_⟩
  exact Option.map_eq_some_iff.mp (by decide +kernel)

/-- With memory allocated in a row, both routines come to their end. The one for
the tables asks for a block for each table and one for each row. After the one in
the file of a subclass, the slot of a method it inherits leads to the superclass. -/
theorem linkedUnits_initialised : ∃ g l u file n, check linkedUnits false = .ok g ∧
    Layout.ofGraph g linkedUnits = .ok l ∧ u ∈ linkedUnits ∧ (u.emit l).Gives 0 file n () ∧
    ∃ m : Machine,
      Program.CallCompletes ⟨l.tablesListing, linkedSymbols⟩ .stacking Symbol.tablesInit
        [Symbol.subtypeTable, Symbol.selectorTable] l.tableSizes linkedHeap m
        (fun m' => l.InMemory linkedSymbols m' ∧ m.KeepsIn linkedHeap (fun x =>
          x = linkedSymbols Symbol.subtypeTable ∨ x = linkedSymbols Symbol.selectorTable) m') ∧
      (∃ start s, Program.goto ⟨l.tablesListing, linkedSymbols⟩ (.symbol Symbol.tablesInit) m =
          some start ∧
        Program.StepsWith ⟨l.tablesListing, linkedSymbols⟩ .stacking ⟨start, linkedHeap⟩ s ∧
        s.toConfig.AtReturn ∧ l.InMemory linkedSymbols s.machine ∧
        s.heap.map (·.size) = [8, 8, 8, 12, 12, 12, 12, 12]) ∧
      ∃ start s, Program.goto ⟨file, linkedSymbols⟩ (.symbol (Symbol.vtableInit "p.B")) m =
          some start ∧
        Program.StepsWith ⟨file, linkedSymbols⟩ .stacking ⟨start, linkedHeap⟩ s ∧
        s.toConfig.AtReturn ∧ ∃ b : Region, s.machine.memory 0x1008 = b.base ∧
          s.machine.memory (b.word 1) = 0x2000 := by
  obtain ⟨l, hlayout, -, hbuild, -, hfiles⟩ :=
    Layout.initialisers_build_layout linkedUnits false linkedGraph rfl
  obtain rfl : linkedLayout = l := by
    rw [linkedLayout, hlayout]
  have haddressable : linkedLayout.Addressable :=
    ⟨by decide +kernel, by decide +kernel, by decide +kernel⟩
  obtain ⟨htables, hvtables⟩ := hbuild haddressable .stacking linkedSymbols idleMachine linkedHeap
  have hcells : ∀ name ∈ [Symbol.subtypeTable, Symbol.selectorTable, Symbol.vtable "p.B"],
      Region.InUse linkedHeap (linkedSymbols name) := by
    intro name hname
    refine ⟨_, List.mem_cons_self, ?_⟩
    revert name
    unfold Region.Has
    decide
  have htables := htables (hcells _ (by decide)) (hcells _ (by decide)) (by decide)
  obtain ⟨t, htrun, hend⟩ := tables_linkedLayout
  obtain ⟨htcode, hsizes⟩ := Prod.mk.inj hend
  obtain ⟨tstart, htstart, htsteps, hmemory, -⟩ := htables.of_runFor htrun ⟨[], htcode⟩
  have hslot : ∀ c ∈ linkedLayout.classes, c.name = "p.B" →
      (c.vtable[1]?).map (fun e => (e.isAbstract, e.label)) = some (false, "p_A_g") := by
    decide +kernel
  obtain ⟨u, d, file, n, hu, hd, hname, hnamed, hgives, s, hrun, hcode⟩ := vtable_linkedLayout
  obtain ⟨c, hc, hclass, hends⟩ := hfiles u d 0 n file hd hnamed hgives
  rw [hname] at hclass
  have hcalls := hvtables c hc (by rw [hclass]; exact hcells _ (by decide)) file hends
  rw [hclass] at hcalls
  obtain ⟨start, hstart, hsteps, ⟨b, -, hbase, -, hentries⟩, -⟩ := hcalls.of_runFor hrun ⟨[], hcode⟩
  obtain ⟨e, he, hlabel⟩ := Option.map_eq_some_iff.mp (hslot c hc hclass)
  obtain ⟨habstract, hlabel⟩ := Prod.mk.inj hlabel
  refine ⟨_, linkedLayout, u, file, n, rfl, hlayout, hu, hgives, idleMachine, htables,
    ⟨tstart, t, htstart, htsteps, ⟨[], htcode⟩, hmemory, hsizes⟩,
    start, s, hstart, hsteps, ⟨[], hcode⟩, b, ?_, ?_⟩
  · rw [← hbase, hclass]
    rfl
  · rw [hentries 1 e he, habstract, hlabel]
    rfl

end ClassCompiler
