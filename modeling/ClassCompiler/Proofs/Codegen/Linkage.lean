import ClassCompiler.Proofs.Codegen.RoutineRuns
import ClassCompiler.Proofs.Symbol.Mangling

/-!
# What a listing defines and refers to

A linker sees of a file which symbols it defines, which of them other files may
see, which it expects of other files, and which its instructions refer to. The
code of a routine defines its own symbol and temporary labels, and refers to
those labels only: a jump stays within its routine. The code that fills a table
refers to what it enters into the table, and to the memory it asks for.

Key definitions: `Instr.references`, `Listing.definitions`, `Listing.names`,
`Listing.exports`, `Listing.imports`, `Listing.references`, `Listing.Inner`.

Key theorems: `TaskCode.inner` (a jump stays within its code or goes to the end
of the routine), `Routine.names_of_gives`, `ClassLayout.refersTo_vtableListing`,
`Layout.refersTo_tablesListing`.
-/

namespace ClassCompiler

/-! ### Symbols of lines -/

def Address.references : Address → List Label
  | .symbol name => [.symbol name]
  | .slot _ | .offset .. => []

def Operand.references : Operand → List Label
  | .mem a => a.references
  | .reg _ | .imm _ => []

def Word.references : Word → List Label
  | .symbol name => [.symbol name]
  | .number _ => []

/-- The labels and symbols among the operands of an instruction. -/
def Instr.references : Instr → List Label
  | .mov _ source => source.references
  | .store target _ => target.references
  | .storeWord target value => target.references ++ value.references
  | .arith _ _ source => source.references
  | .jmp target | .jumpIf _ target => [target]
  | .call routine => [.symbol routine]
  | .push _ | .pop _ | .neg _ | .xchg .. | .cdq | .idiv _ | .ret => []

/-- The name of a label, unless it is a temporary one. -/
def Label.name? : Label → Option String
  | .temporary _ => none
  | .symbol name => some name

namespace Line

/-- The label that a line defines: that of a place in the code or of a cell. -/
def definition? : Line ι → Option Label
  | .label l => some l
  | .data symbol _ => some (.symbol symbol)
  | _ => none

def exported? : Line ι → Option String
  | .exported symbol => some symbol
  | _ => none

def imported? : Line ι → Option String
  | .imported symbol => some symbol
  | _ => none

def references : Line Instr → List Label
  | .instr i => i.references
  | _ => []

end Line

namespace Listing

/-- The labels that are defined, temporary ones included. -/
def definitions (ls : Listing) : List Label := ls.filterMap Line.definition?

/-- The symbols that are defined and are no temporary labels. -/
def names (ls : Listing) : List String := ls.definitions.filterMap Label.name?

/-- The symbols that other files may see. -/
def exports (ls : Listing) : List String := ls.filterMap Line.exported?

/-- The symbols that other files define. -/
def imports (ls : Listing) : List String := ls.filterMap Line.imported?

/-- The labels and symbols that instructions have as operands. -/
def references (ls : Listing) : List Label := ls.flatMap Line.references

section
variable (as bs : Listing)

@[simp] theorem definitions_append : definitions (as ++ bs) = definitions as ++ definitions bs :=
  List.filterMap_append

@[simp] theorem names_append : names (as ++ bs) = names as ++ names bs := by
  rw [names, definitions_append, List.filterMap_append]
  rfl

@[simp] theorem exports_append : exports (as ++ bs) = exports as ++ exports bs :=
  List.filterMap_append

@[simp] theorem imports_append : imports (as ++ bs) = imports as ++ imports bs :=
  List.filterMap_append

@[simp] theorem references_append : references (as ++ bs) = references as ++ references bs :=
  List.flatMap_append

end

theorem mem_names {ls : Listing} {name : String} : name ∈ ls.names ↔ .symbol name ∈ ls.definitions := by
  rw [names, List.mem_filterMap]
  constructor
  · rintro ⟨_ | name', hl, he⟩
    · cases he
    · rwa [← Option.some.inj he]
  · exact fun h => ⟨_, h, rfl⟩

theorem mem_definitions_of_mem_labels {ls : Listing} {l : Label} (h : l ∈ ls.labels) :
    l ∈ ls.definitions := by
  obtain ⟨line, hline, he⟩ := List.mem_filterMap.mp h
  refine List.mem_filterMap.mpr ⟨line, hline, ?_⟩
  cases line with
  | label => exact he
  | _ => cases he

/-! ### Code inside a routine -/

/-- Whatever is referred to is defined here or is one of `outer`. -/
def RefersTo (outer : List Label) (ls : Listing) : Prop :=
  ∀ l ∈ ls.references, l ∈ ls.definitions ∨ l ∈ outer

namespace RefersTo

variable {outer outer' : List Label} {as bs : Listing}

theorem of_references_eq_nil (h : as.references = []) : RefersTo outer as := by
  intro l hl
  rw [h] at hl
  cases hl

theorem append (ha : RefersTo outer as) (hb : RefersTo outer bs) : RefersTo outer (as ++ bs) := by
  intro l hl
  rw [definitions_append, List.mem_append]
  rw [references_append, List.mem_append] at hl
  rcases hl with hl | hl
  · exact (ha l hl).imp_left .inl
  · exact (hb l hl).imp_left .inr

theorem mono (h : RefersTo outer as) (hs : outer ⊆ outer') : RefersTo outer' as :=
  fun l hl => (h l hl).imp_right fun hm => hs hm

/-- A label that is defined here need not be defined elsewhere. -/
theorem define {l : Label} (h : RefersTo (l :: outer) as) (hl : l ∈ as.labels) : RefersTo outer as := by
  intro l' hl'
  rcases h l' hl' with hm | hm
  · exact .inl hm
  · rcases List.mem_cons.mp hm with rfl | hm
    · exact .inl (mem_definitions_of_mem_labels hl)
    · exact .inr hm

end RefersTo

/-- Code that says nothing to a linker and refers to its own labels and to
those in `outer` only. -/
structure Inner (outer : List Label) (ls : Listing) : Prop where
  names : ls.names = []
  exports : ls.exports = []
  imports : ls.imports = []
  refersTo : ls.RefersTo outer

namespace Inner

variable {outer outer' : List Label} {as bs : Listing}

theorem nil : Inner outer [] := ⟨rfl, rfl, rfl, .of_references_eq_nil rfl⟩

theorem append (ha : Inner outer as) (hb : Inner outer bs) : Inner outer (as ++ bs) := by
  refine ⟨?_, ?_, ?_, ha.refersTo.append hb.refersTo⟩
  · rw [names_append, ha.names, hb.names, List.append_nil]
  · rw [exports_append, ha.exports, hb.exports, List.append_nil]
  · rw [imports_append, ha.imports, hb.imports, List.append_nil]

theorem mono (h : Inner outer as) (hs : outer ⊆ outer') : Inner outer' as :=
  ⟨h.names, h.exports, h.imports, h.refersTo.mono hs⟩

theorem define {l : Label} (h : Inner (l :: outer) as) (hl : l ∈ as.labels) : Inner outer as :=
  ⟨h.names, h.exports, h.imports, h.refersTo.define hl⟩

theorem instr {i : Instr} (h : i.references ⊆ outer) : Inner outer [.instr i] := by
  refine ⟨rfl, rfl, rfl, fun l hl => .inr (h ?_)⟩
  rwa [Listing.references, List.flatMap_singleton] at hl

theorem temporary (n : Nat) : Inner outer [.label (.temporary n)] := ⟨rfl, rfl, rfl, .of_references_eq_nil rfl⟩

theorem caption (s : Stmt) : Inner outer [s.caption] := ⟨rfl, rfl, rfl, .of_references_eq_nil rfl⟩

theorem jumpOn (c : Condition) (l : Label) : Inner (l :: outer) (jumpOn c l) :=
  (instr (List.nil_subset _)).append (instr (by simp [Instr.references]))

end Inner
end Listing

theorem BinaryOp.inner_emitEager {op : BinaryOp} {n n' : Nat} {ls : Listing} {u : Unit}
    (h : op.emitEager.Gives n ls n' u) : ls.Inner [] := by
  cases op with
  | and | or => exact absurd h Emit.gives_fail
  | lt | le | gt | ge | eq | ne =>
    simp only [BinaryOp.emitEager, emitComparison, Emit.gives_fresh_bind, Emit.gives_lines] at h
    obtain ⟨rfl, rfl⟩ := h
    exact ⟨rfl, rfl, rfl, fun l hl => .inl hl⟩
  | _ =>
    simp only [BinaryOp.emitEager, Emit.gives_instr, Emit.gives_lines] at h
    obtain ⟨rfl, rfl⟩ := h
    exact ⟨rfl, rfl, rfl, .of_references_eq_nil rfl⟩

theorem UnaryOp.inner_emit {op : UnaryOp} {n n' : Nat} {ls : Listing} {u : Unit}
    (h : op.emit.Gives n ls n' u) : ls.Inner [] := by
  cases op <;> obtain ⟨rfl, rfl⟩ := Emit.gives_instr.mp h <;> exact .instr (List.nil_subset _)

section
open Listing

theorem ExprCode.inner {f : Frame} {e : Expr} {n n' : Nat} {ls : Listing}
    (h : ExprCode f e n ls n') {outer : List Label} : ls.Inner outer := by
  induction h generalizing outer with
  | literal _ | name _ => exact .instr (List.nil_subset _)
  | shortCircuit _ _ _ ihl ihr =>
    exact (ihl.append ((Inner.jumpOn _ _).append (ihr.append (.temporary _)))).define (by simp)
  | eager _ _ _ ho ihl ihr =>
    have heager := (BinaryOp.inner_emitEager ho).mono (List.nil_subset outer)
    have hpush : Inner outer [.instr (.push .eax)] := .instr (List.nil_subset _)
    have hpop : Inner outer [.instr (.pop .ebx)] := .instr (List.nil_subset _)
    exact ihl.append (hpush.append (ihr.append (hpop.append heager)))
  | unary _ ho ih => exact ih.append ((UnaryOp.inner_emit ho).mono (List.nil_subset _))
  | assign _ _ ih => exact ih.append (.instr (List.nil_subset _))

theorem OptionCode.inner {f : Frame} {o : Option Expr} {n n' : Nat} {ls : Listing}
    (h : OptionCode f o n ls n') {outer : List Label} : ls.Inner outer := by
  cases h with
  | absent => exact .nil
  | present h => exact h.inner

theorem TestCode.inner {f : Frame} {l : Label} {o : Option Expr} {n n' : Nat} {ls : Listing}
    (h : TestCode f l o n ls n') {outer : List Label} : ls.Inner (l :: outer) := by
  cases h with
  | absent => exact .nil
  | present h => exact h.inner.append (.jumpOn _ _)

/-- The code of a task jumps to its own labels and to the end of its routine. -/
theorem TaskCode.inner {exit : Label} {f f' : Frame} {t : Task} {n n' : Nat} {ls : Listing}
    (h : TaskCode exit f t n ls n' f') {outer : List Label} (hexit : exit ∈ outer) :
    ls.Inner outer := by
  induction h generalizing outer with
  | expr h => exact (Inner.caption _).append h.inner
  | localVar h => exact (Inner.caption _).append (h.inner.append (.instr (List.nil_subset _)))
  | @branch _ _ _ _ n _ _ _ _ _ hc _ ih =>
    have hthen := ih (List.mem_cons_of_mem (.temporary n) hexit)
    have hcode := hc.inner.append ((Inner.jumpOn .equal _).append (hthen.append (.temporary n)))
    exact (Inner.caption _).append (hcode.define (by simp))
  | @branchElse _ _ _ _ _ _ n _ n₂ _ _ _ _ _ hc _ _ iht ihe =>
    -- both ends of the branch are outside its parts
    have hmem : exit ∈ Label.temporary n :: .temporary n₂ :: outer := by simp [hexit]
    have hjump : Inner (.temporary n :: .temporary n₂ :: outer) [.instr (.jmp (.temporary n₂))] :=
      .instr (by simp [Instr.references])
    have helse := (Inner.temporary n).append ((ihe hmem).append (.temporary n₂))
    have hcode := hc.inner.append ((Inner.jumpOn .equal _).append ((iht hmem).append (hjump.append helse)))
    exact (Inner.caption _).append ((hcode.define (by simp)).define (by simp))
  | whileLoop _ ih => exact (Inner.caption _).append (ih hexit)
  | forLoop _ _ ihi ih => exact (Inner.caption _).append ((ihi hexit).append (ih hexit))
  | ret h =>
    exact (Inner.caption _).append (h.inner.append (.instr (by simpa [Instr.references] using hexit)))
  | block _ ih => exact ih hexit
  | empty | nil => exact .nil
  | cons _ _ ih ihs => exact (ih hexit).append (ihs hexit)
  | @loop _ _ _ _ _ n _ _ _ _ _ _ hc _ hu ih =>
    have hmem : exit ∈ Label.temporary (n + 1) :: .temporary n :: outer := by simp [hexit]
    have hback : Inner (.temporary (n + 1) :: .temporary n :: outer) [.instr (.jmp (.temporary n))] :=
      .instr (by simp [Instr.references])
    have hbody := hc.inner.append ((ih hmem).append (hu.inner.append (hback.append (.temporary (n + 1)))))
    have hcode := (Inner.temporary n).append hbody
    exact (hcode.define (by simp)).define (by simp)

end

/-! ### Routines -/

namespace Routine

variable {r : Routine} {n n' : Nat} {ls : Listing} {u : Unit}

/-- What a linker sees of the code of a routine: the routine's own symbol. -/
theorem names_of_gives (h : r.emit.Gives n ls n' u) :
    ls.names = [r.symbol] ∧ ls.exports = [r.symbol] ∧ ls.imports = [] := by
  obtain ⟨lb, f', hcode, -, rfl⟩ := code_of_gives h
  have hb := hcode.inner (List.mem_singleton_self _)
  have hentry : (r.entry r.body.localCount).names = [r.symbol] ∧
      (r.entry r.body.localCount).exports = [r.symbol] ∧
      (r.entry r.body.localCount).imports = [] := by
    unfold entry
    split <;> exact ⟨rfl, rfl, rfl⟩
  obtain ⟨h₁, h₂, h₃⟩ := hentry
  simp only [Listing.names_append, Listing.exports_append, Listing.imports_append, h₁, h₂, h₃,
    hb.names, hb.exports, hb.imports]
  exact ⟨rfl, rfl, rfl⟩

/-- The code of a routine refers to its own labels only. -/
theorem refersTo_of_gives (h : r.emit.Gives n ls n' u) : ls.RefersTo [] := by
  obtain ⟨lb, f', hcode, -, rfl⟩ := code_of_gives h
  have hb := hcode.inner (List.mem_singleton_self _)
  have hentry : (r.entry r.body.localCount).references = [] := by
    unfold entry
    split <;> rfl
  have hend : Listing.RefersTo [.temporary n] (epilogue (.temporary n)) := .of_references_eq_nil rfl
  have hroutine := (Listing.RefersTo.of_references_eq_nil hentry).append (hb.refersTo.append hend)
  exact hroutine.define (by simp [epilogue])

end Routine

/-! ### Tables -/

theorem mem_insertSymbol {s t : String} {ts : List String} :
    s ∈ insertSymbol t ts ↔ s = t ∨ s ∈ ts := by
  induction ts with
  | nil => exact List.mem_cons
  | cons t' ts ih =>
    unfold insertSymbol
    split
    · exact List.mem_cons
    · split
      · rename_i heq
        subst heq
        simp
      · rw [List.mem_cons, ih, List.mem_cons]
        exact or_left_comm

theorem mem_foldr_insertSymbol {s : String} {ts : List String} :
    s ∈ ts.foldr insertSymbol [] ↔ s ∈ ts := by
  induction ts with
  | nil => rfl
  | cons t ts ih => rw [List.foldr_cons, mem_insertSymbol, ih, List.mem_cons]

namespace Listing

section
variable (ss : List String)

theorem names_importedSymbols : (importedSymbols ss).names = [] := by
  simp [names, definitions, importedSymbols, Line.definition?]

theorem labels_importedSymbols : (importedSymbols ss).labels = [] := by
  simp [importedSymbols, labels, List.filterMap_map]

theorem exports_importedSymbols : (importedSymbols ss).exports = [] := by
  simp [exports, importedSymbols, Line.exported?]

theorem references_importedSymbols : (importedSymbols ss).references = [] := by
  simp [references, importedSymbols, Line.references]

theorem mem_imports_importedSymbols {s : String} : s ∈ (importedSymbols ss).imports ↔ s ∈ ss := by
  rw [imports, importedSymbols, List.filterMap_map]
  exact (iff_of_eq (congrArg (s ∈ ·) List.filterMap_some)).trans mem_foldr_insertSymbol

end

namespace Inner

variable {outer : List Label}

theorem flatMap {as : List α} {f : α → Listing} (h : ∀ a ∈ as, Inner outer (f a)) :
    Inner outer (as.flatMap f) := by
  induction as with
  | nil => exact nil
  | cons a as ih =>
    rw [List.flatMap_cons]
    exact (h a List.mem_cons_self).append (ih fun b hb => h b (List.mem_cons_of_mem a hb))

theorem allocate {words : Nat} (h : .symbol Symbol.malloc ∈ outer) : Inner outer (allocate words) :=
  (instr (List.nil_subset _)).append (instr (by simpa [Instr.references] using h))

theorem comment (text : String) : Inner outer [.comment text] := ⟨rfl, rfl, rfl, .of_references_eq_nil rfl⟩

theorem storeWord {base : Register} {bytes : Nat} {word : Word} (h : word.references ⊆ outer) :
    Inner outer [.instr (.storeWord (.offset base bytes) word)] :=
  instr h

end Inner

/-- Each of the symbols is defined, in this order, and other files may see it. -/
structure Publishes (symbols : List String) (ls : Listing) : Prop where
  names : ls.names = symbols
  exports : ls.exports = symbols

theorem Publishes.append {as bs : Listing} {ss ts : List String} (ha : Publishes ss as)
    (hb : Publishes ts bs) : Publishes (ss ++ ts) (as ++ bs) := by
  constructor
  · rw [names_append, ha.names, hb.names]
  · rw [exports_append, ha.exports, hb.exports]

theorem Inner.publishes {outer : List Label} {ls : Listing} (h : Inner outer ls) : Publishes [] ls :=
  ⟨h.names, h.exports⟩

end Listing

namespace ClassLayout

variable (c : ClassLayout) (typeName : String)

/-- The symbols that the code of a class's vtable refers to. -/
def references : List Label :=
  .symbol Symbol.malloc :: .symbol (Symbol.vtable c.name) ::
    (c.vtable.filter fun e => !e.isAbstract).map fun e => .symbol e.label

theorem inner_fill : Listing.Inner c.references (c.vtable.zipIdx.flatMap fun p => p.1.fill p.2) := by
  refine .flatMap fun p hp => (Listing.Inner.comment _).append (.storeWord ?_)
  have he : p.1 ∈ c.vtable := List.fst_mem_of_mem_zipIdx hp
  unfold VtableEntry.word
  by_cases ha : p.1.isAbstract
  · rw [if_pos ha]
    exact List.nil_subset _
  · rw [if_neg ha]
    have hm : p.1 ∈ c.vtable.filter fun e => !e.isAbstract := List.mem_filter.mpr ⟨he, by simpa using ha⟩
    simp only [Word.references, references, List.cons_subset, List.nil_subset, and_true]
    exact List.mem_cons_of_mem _ (List.mem_cons_of_mem _ (List.mem_map_of_mem hm))

theorem publishes_vtableListing : (c.vtableListing typeName).Publishes
    [Symbol.vtable c.name, Symbol.vtableInit c.name] := by
  constructor
  · simp only [vtableListing, Listing.names_append, Listing.names_importedSymbols, c.inner_fill.names]
    rfl
  · simp only [vtableListing, Listing.exports_append, Listing.exports_importedSymbols,
      c.inner_fill.exports]
    rfl

theorem mem_imports_vtableListing {s : String} : s ∈ (c.vtableListing typeName).imports ↔
    s = Symbol.malloc ∨ s ∈ c.foreignLabels typeName := by
  have he : (c.vtableListing typeName).imports =
      (importedSymbols (Symbol.malloc :: c.foreignLabels typeName)).imports := by
    simp only [vtableListing, Listing.imports_append, c.inner_fill.imports, List.append_assoc]
    exact List.append_nil _
  rw [he, Listing.mem_imports_importedSymbols, List.mem_cons]

theorem refersTo_vtableListing : (c.vtableListing typeName).RefersTo c.references := by
  have hcell : Listing.RefersTo c.references [.instr (.store (.symbol (Symbol.vtable c.name)) .eax),
      .instr (.mov .ebx (.reg .eax))] := by
    intro l hl
    obtain rfl : l = .symbol (Symbol.vtable c.name) := List.mem_singleton.mp hl
    exact .inr (List.mem_cons_of_mem _ List.mem_cons_self)
  have hmalloc : (allocate c.vtable.length).Inner c.references := .allocate List.mem_cons_self
  have himports := Listing.references_importedSymbols (Symbol.malloc :: c.foreignLabels typeName)
  unfold vtableListing
  refine .append (.append (.append (.append (.append (.append ?_ (.of_references_eq_nil himports)) ?_)
    hmalloc.refersTo) hcell) c.inner_fill.refersTo)
    (.of_references_eq_nil rfl)
  · exact .of_references_eq_nil rfl
  · exact .of_references_eq_nil rfl

end ClassLayout

theorem inner_fillTable {outer : List Label} {table : String} {rows columns : Nat}
    {cells : List (List Word)} (hmalloc : .symbol Symbol.malloc ∈ outer)
    (htable : .symbol table ∈ outer) (hcells : ∀ row ∈ cells, ∀ w ∈ row, w.references ⊆ outer) :
    (fillTable table rows columns cells).Inner outer := by
  have hstore : Listing.Inner outer [.instr (.store (.symbol table) .eax)] :=
    .instr (by simpa [Instr.references, Address.references] using htable)
  refine ((Listing.Inner.allocate hmalloc).append hstore).append (.flatMap fun p hp => ?_)
  have hrow : p.1 ∈ cells := List.fst_mem_of_mem_zipIdx hp
  have henter : Listing.Inner outer [.instr (.mov .ebx (.mem (.symbol table))),
      .instr (.store (.offset .ebx (wordSize * p.2)) .eax)] :=
    (Listing.Inner.instr (by simpa [Instr.references, Operand.references, Address.references]
      using htable)).append (.instr (List.nil_subset _))
  refine ((Listing.Inner.allocate hmalloc).append henter).append ?_
  rw [List.map_eq_flatMap]
  exact .flatMap fun q hq => .storeWord (hcells p.1 hrow q.1 (List.fst_mem_of_mem_zipIdx hq))

namespace Layout

variable (l : Layout)

/-- The symbols that the code of the tables refers to. -/
def references : List Label :=
  .symbol Symbol.malloc :: .symbol Symbol.subtypeTable :: .symbol Symbol.selectorTable ::
    (l.selector.flatten.filterMap id).map .symbol

theorem inner_subtypeTable (rows columns : Nat) : (fillTable Symbol.subtypeTable rows columns
    (l.subtypes.map fun row => row.map subtypeWord)).Inner l.references := by
  refine inner_fillTable (by simp [references]) (by simp [references]) fun row hrow w hw => ?_
  obtain ⟨bits, -, rfl⟩ := List.mem_map.mp hrow
  obtain ⟨b, -, rfl⟩ := List.mem_map.mp hw
  exact List.nil_subset _

theorem inner_selectorTable (rows columns : Nat) : (fillTable Symbol.selectorTable rows columns
    (l.selector.map fun row => row.map selectorWord)).Inner l.references := by
  refine inner_fillTable (by simp [references]) (by simp [references]) fun row hrow w hw => ?_
  obtain ⟨labels, hlabels, rfl⟩ := List.mem_map.mp hrow
  obtain ⟨label, hlabel, rfl⟩ := List.mem_map.mp hw
  cases label with
  | none => exact List.nil_subset _
  | some label =>
    have hm : label ∈ l.selector.flatten.filterMap id :=
      List.mem_filterMap.mpr ⟨_, List.mem_flatten.mpr ⟨labels, hlabels, hlabel⟩, rfl⟩
    simp only [selectorWord, Word.references, List.cons_subset, List.nil_subset, and_true, references]
    exact List.mem_cons_of_mem _ (List.mem_cons_of_mem _ (List.mem_cons_of_mem _
      (List.mem_map_of_mem hm)))

theorem publishes_tablesListing : l.tablesListing.Publishes
    [Symbol.subtypeTable, Symbol.selectorTable, Symbol.tablesInit] := by
  have hsubtypes := l.inner_subtypeTable l.types.length l.types.length
  have hselector := l.inner_selectorTable l.classes.length l.interfaceSlots.length
  constructor
  · simp only [tablesListing, Listing.names_append, Listing.names_importedSymbols, hsubtypes.names,
      hselector.names]
    rfl
  · simp only [tablesListing, Listing.exports_append, Listing.exports_importedSymbols,
      hsubtypes.exports, hselector.exports]
    rfl

theorem mem_imports_tablesListing {s : String} : s ∈ l.tablesListing.imports ↔
    s = Symbol.malloc ∨ some s ∈ l.selector.flatten := by
  have he : l.tablesListing.imports =
      (importedSymbols (Symbol.malloc :: l.selector.flatten.filterMap id)).imports := by
    simp only [tablesListing, Listing.imports_append, (l.inner_subtypeTable _ _).imports,
      (l.inner_selectorTable _ _).imports, List.append_assoc]
    exact List.append_nil _
  rw [he, Listing.mem_imports_importedSymbols, List.mem_cons]
  simp

theorem refersTo_tablesListing : l.tablesListing.RefersTo l.references := by
  have himports := Listing.references_importedSymbols (Symbol.malloc :: l.selector.flatten.filterMap id)
  have hsubtypes := l.inner_subtypeTable l.types.length l.types.length
  have hselector := l.inner_selectorTable l.classes.length l.interfaceSlots.length
  unfold tablesListing
  refine .append (.append (.append (.append (.append (.append ?_ (.of_references_eq_nil himports)) ?_)
    hsubtypes.refersTo) ?_) hselector.refersTo)
    (.of_references_eq_nil rfl)
  · exact .of_references_eq_nil rfl
  · exact .of_references_eq_nil rfl
  · exact .of_references_eq_nil rfl

end Layout

end ClassCompiler
