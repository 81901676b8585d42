import ClassCompiler.Proofs.Codegen.UnitSymbols
import ClassCompiler.Proofs.Dispatch.Selector
import ClassCompiler.Proofs.Output.Files
import Mathlib.Data.List.Nodup

/-!
# Linking the files of a program

The files of a program are those of its units, which share one count of
temporary labels, and that of the tables. The layout names the entry points by
the types and methods of the hierarchy, and the file of a unit by the unit's
own members; for a lawful program both give the same symbols, so that every
symbol that a file asks for is there.

A symbol is defined twice only where a class has two constructors with the same
parameter types: the methods of a type are checked to differ, the constructors
are not.

Key definitions: `Listing.defined`, `Listing.used`, `Layout.Enters`, `programReferents`.

Key theorems: `Layout.files_link`, `Layout.nodup_names_iff`.
-/

namespace ClassCompiler

namespace Listing

/-- The symbols that a file defines, as they are written. -/
def defined (ls : Listing) : List String := ls.definitions.map Label.text

/-- The symbols that instructions have as operands, as they are written. -/
def used (ls : Listing) : List String := ls.references.map Label.text

theorem mem_defined_of_mem_names {ls : Listing} {s : String} (h : s ∈ ls.names) : s ∈ ls.defined :=
  List.mem_map.mpr ⟨_, mem_names.mp h, rfl⟩

/-- A file does not define the symbol of a thing that it should not define. -/
theorem symbol_notMem_defined {ls : Listing} {rs : List Referent}
    (hp : ls.Publishes (rs.map (·.symbol))) (hrs : ∀ r ∈ rs, r.isWellNamed = true) {r : Referent}
    (hr : r.isWellNamed = true) (hmem : r ∉ rs) (htemporary : ∀ n, r ≠ .temporary n) :
    r.symbol ∉ ls.defined := by
  intro h
  obtain ⟨l, hl, hs⟩ := List.mem_map.mp h
  cases l with
  | temporary n =>
    have he : r = .temporary n := Referent.symbol_inj hr rfl hs.symm
    exact htemporary n he
  | symbol name =>
    have hname : name ∈ ls.names := mem_names.mpr hl
    rw [hp.names] at hname
    obtain ⟨r', hr', rfl⟩ := List.mem_map.mp hname
    exact hmem (Referent.symbol_inj (hrs r' hr') hr hs ▸ hr')

end Listing

namespace Layout

/-! ### The files of a program -/

section
variable {l : Layout} {us : List CompilationUnit} (hok : ∀ e ∈ l.emissions 0 us, e.result = .ok ())
include hok

/-- Each unit has its file, at its own place. -/
theorem exists_listing {i : Nat} {u : CompilationUnit} (hu : us[i]? = some u) :
    ∃ ls k k', (l.listings us)[i]? = some ls ∧ (u.emit l).Gives k ls k' () := by
  let k := l.labelAfter 0 (us.take i)
  have hk : (l.emissions 0 us)[i]? = some (u.emit l k) := getElem?_emissions hu
  have hlt : i < ((l.emissions 0 us).map (·.lines)).length := by
    rw [List.length_map, length_emissions]
    exact (List.getElem?_eq_some_iff.mp hu).1
  refine ⟨(u.emit l k).lines, k, (u.emit l k).nextLabel, ?_, ?_⟩
  · rw [listings, List.getElem?_append_left hlt, List.getElem?_map, hk]
    rfl
  · rw [Emit.Gives, ← hok _ (List.mem_of_getElem? hk)]

/-- A file is that of a unit or that of the tables, which comes last. -/
theorem getElem?_listings {i : Nat} {ls : Listing} (h : (l.listings us)[i]? = some ls) :
    (∃ u k k', us[i]? = some u ∧ (u.emit l).Gives k ls k' ()) ∨
      i = us.length ∧ ls = l.tablesListing := by
  rcases hu : us[i]? with _ | u
  · refine .inr ?_
    have hle : us.length ≤ i := List.getElem?_eq_none_iff.mp hu
    rw [listings, List.getElem?_append_right (by rwa [List.length_map, length_emissions]),
      List.length_map, length_emissions] at h
    obtain ⟨hlt, hls⟩ := List.getElem?_eq_some_iff.mp h
    have hi : i = us.length := by
      rw [List.length_singleton] at hlt
      omega
    exact ⟨hi, by simpa using hls.symm⟩
  · obtain ⟨ls', k, k', h', hgives⟩ := exists_listing hok hu
    obtain rfl := Option.some.inj (h.symm.trans h')
    exact .inl ⟨u, k, k', rfl, hgives⟩

end

/-- The file of a unit has a routine with this entry point. -/
def Enters (l : Layout) (us : List CompilationUnit) (i : Nat) (label : String) : Prop :=
  ∃ u : CompilationUnit, us[i]? = some u ∧ ∃ c, u.decl = .ofClass c ∧
    ∃ ls, (l.listings us)[i]? = some ls ∧
      ∃ member ∈ c.members, ∃ r, member.routine? u.qualifiedName = some r ∧ r.symbol = label ∧
        ∃ k k' code, r.emit.Gives k code k' () ∧ code <:+: ls

/-! ### What the files define -/

end Layout

/-- What the files of a program define, file by file. -/
def programReferents (us : List CompilationUnit) : List (List Referent) :=
  us.map (·.referents) ++ [[.subtypeTable, .selectorTable, .tablesInit]]

theorem getElem?_programReferents {us : List CompilationUnit} {i : Nat} {u : CompilationUnit}
    (hu : us[i]? = some u) : (programReferents us)[i]? = some u.referents := by
  have hlt : i < (us.map (·.referents)).length := by
    rw [List.length_map]
    exact (List.getElem?_eq_some_iff.mp hu).1
  rw [programReferents, List.getElem?_append_left hlt, List.getElem?_map, hu]
  rfl

/-- What no type owns is defined in no file, the tables apart. -/
theorem notMem_programReferents {us : List CompilationUnit} {rs : List Referent}
    (hrs : rs ∈ programReferents us) {r : Referent} (howner : r.owner? = none)
    (htables : r ∉ [.subtypeTable, .selectorTable, .tablesInit]) : r ∉ rs := by
  intro hr
  rcases List.mem_append.mp hrs with hrs | hrs
  · obtain ⟨u, -, rfl⟩ := List.mem_map.mp hrs
    cases howner.symm.trans (CompilationUnit.owner?_of_mem_referents hr)
  · obtain rfl := List.mem_singleton.mp hrs
    exact htables hr

/-- Two files at different places define different things. -/
theorem disjoint_of_getElem? {rss : List (List Referent)} (h : rss.Pairwise List.Disjoint) {i j : Nat}
    {rs ts : List Referent} (hi : rss[i]? = some rs) (hj : rss[j]? = some ts) (hne : i ≠ j) :
    rs.Disjoint ts := by
  obtain ⟨hi', rfl⟩ := List.getElem?_eq_some_iff.mp hi
  obtain ⟨hj', rfl⟩ := List.getElem?_eq_some_iff.mp hj
  rw [List.pairwise_iff_getElem] at h
  rcases Nat.lt_or_gt_of_ne hne with hlt | hlt
  · exact h i j hi' hj' hlt
  · exact fun r hr hr' => h j i hj' hi' hlt hr' hr

/-- No two files define one thing. -/
theorem disjoint_programReferents {us : List CompilationUnit}
    (hd : (us.map (·.qualifiedName)).Nodup) : (programReferents us).Pairwise List.Disjoint := by
  rw [programReferents, List.pairwise_append]
  refine ⟨?_, List.pairwise_singleton _ _, ?_⟩
  · rw [List.pairwise_map]
    refine (List.pairwise_map.mp hd).imp fun hne r hr hr' => hne ?_
    exact Option.some.inj ((CompilationUnit.owner?_of_mem_referents hr).symm.trans
      (CompilationUnit.owner?_of_mem_referents hr'))
  · intro rs hrs ts hts r hr hr'
    obtain ⟨u, -, rfl⟩ := List.mem_map.mp hrs
    obtain rfl := List.mem_singleton.mp hts
    have howner := CompilationUnit.owner?_of_mem_referents hr
    simp only [List.mem_cons, List.not_mem_nil, or_false] at hr'
    rcases hr' with rfl | rfl | rfl <;> cases howner

theorem isWellNamed_of_mem_programReferents {us : List CompilationUnit}
    (hnames : ∀ u ∈ us, u.isWellNamed = true) {rs : List Referent} (hrs : rs ∈ programReferents us)
    {r : Referent} (hr : r ∈ rs) : r.isWellNamed = true := by
  rcases List.mem_append.mp hrs with hrs | hrs
  · obtain ⟨u, hu, rfl⟩ := List.mem_map.mp hrs
    exact CompilationUnit.isWellNamed_of_mem_referents (hnames u hu) hr
  · obtain rfl := List.mem_singleton.mp hrs
    simp only [List.mem_cons, List.not_mem_nil, or_false] at hr
    rcases hr with rfl | rfl | rfl <;> rfl

namespace Layout

/-- Each file defines what it should, and exports all of it. -/
theorem publishes_listings {l : Layout} {us : List CompilationUnit}
    (hok : ∀ e ∈ l.emissions 0 us, e.result = .ok ()) {i : Nat} {ls : Listing}
    (h : (l.listings us)[i]? = some ls) :
    ∃ rs, (programReferents us)[i]? = some rs ∧ ls.Publishes (rs.map (·.symbol)) := by
  rcases getElem?_listings hok h with ⟨u, k, k', hu, hgives⟩ | ⟨rfl, rfl⟩
  · exact ⟨u.referents, getElem?_programReferents hu, CompilationUnit.publishes_of_gives hgives⟩
  · refine ⟨[.subtypeTable, .selectorTable, .tablesInit], ?_, l.publishes_tablesListing⟩
    rw [programReferents, List.getElem?_append_right (by rw [List.length_map]), List.length_map,
      Nat.sub_self]
    rfl

/-! ### Linking -/

theorem used_available_tables (l : Layout) {s : String} (hs : s ∈ l.tablesListing.used) :
    s ∈ l.tablesListing.defined ∨ s ∈ l.tablesListing.imports := by
  obtain ⟨label, hl, rfl⟩ := List.mem_map.mp hs
  have hnames := l.publishes_tablesListing.names
  rcases l.refersTo_tablesListing label hl with hd | hm
  · exact .inl (List.mem_map_of_mem hd)
  · simp only [references, List.mem_cons, List.mem_map, List.mem_filterMap, id_eq] at hm
    rcases hm with rfl | rfl | rfl | ⟨s, ⟨_, hcell, rfl⟩, rfl⟩
    · exact .inr (l.mem_imports_tablesListing.mpr (.inl rfl))
    · exact .inl (Listing.mem_defined_of_mem_names (by simp [hnames, Label.text]))
    · exact .inl (Listing.mem_defined_of_mem_names (by simp [hnames, Label.text]))
    · exact .inr (l.mem_imports_tablesListing.mpr (.inr hcell))

section
variable {us : List CompilationUnit} {allowUnresolved : Bool} {g : Graph} {l : Layout}
  (hcheck : check us allowUnresolved = .ok g) (hlayout : ofGraph g us = .ok l)
include hcheck hlayout

/-- A cell of the selector table that is not empty holds an entry of a vtable. -/
theorem exists_entry_of_selector {label : String} (h : some label ∈ l.selector.flatten) :
    ∃ c ∈ l.classes, ∃ e ∈ c.vtable, e.isAbstract = false ∧ e.label = label := by
  obtain ⟨hr, hl⟩ := represents_of_check hcheck
  obtain ⟨ids, hb⟩ := built_of_ofGraph hlayout
  obtain ⟨row, hrow, hlabel⟩ := List.mem_flatten.mp h
  rw [hb.selector] at hrow
  obtain ⟨c, hc, rfl⟩ := List.mem_map.mp hrow
  obtain ⟨slot, -, hcell⟩ := List.mem_map.mp hlabel
  obtain ⟨id, hcof⟩ := hb.exists_classOf hr hc
  obtain ⟨-, k, e, -, he, ha, rfl⟩ :=
    (selectorCell_eq_some (hcof.vtable.nodup hr.sound hl hcof.live)).mp hcell
  exact ⟨c, hc, e, List.mem_of_getElem? he, ha, rfl⟩

variable (hok : ∀ e ∈ l.emissions 0 us, e.result = .ok ())
include hok

/-- A slot that is not abstract holds the entry point of a routine that is in
the file of its owner. -/
theorem exists_routine_of_entry {c : ClassLayout} (hc : c ∈ l.classes) {e : VtableEntry}
    (he : e ∈ c.vtable) (ha : e.isAbstract = false) :
    ∃ (i : Nat) (u : CompilationUnit), us[i]? = some u ∧ e.owner = u.qualifiedName ∧
      l.Enters us i e.label ∧ ∃ r ∈ u.referents, r.symbol = e.label := by
  obtain ⟨hr, hl⟩ := represents_of_check hcheck
  obtain ⟨ids, hb⟩ := built_of_ofGraph hlayout
  obtain ⟨id, hcof⟩ := hb.exists_classOf hr hc
  obtain ⟨u, hu, decl, hdecl, m, hm, hs, rfl⟩ :=
    hcof.vtable.exists_methodDecl hr hl hcof.live hcof.isClass he
  have ha' : m.has .isAbstract = false := by rwa [← Method.has_ofDecl u.qualifiedName]
  obtain ⟨i, hi⟩ := List.mem_iff_getElem?.mp hu
  obtain ⟨ls, k, k', hls, hgives⟩ := exists_listing hok hi
  obtain ⟨member, hmember, r, hr, hsymbol, href, hcode⟩ :=
    CompilationUnit.exists_routine_of_gives hgives hdecl hm hs ha'
  exact ⟨i, u, hi, rfl, ⟨u, hi, decl, hdecl, ls, hls, member, hmember, r, hr, hsymbol, hcode⟩,
    _, href, rfl⟩

/-- What a file imports: memory, and routines of other units. -/
theorem exists_referent_of_import {i : Nat} {ls : Listing} (h : (l.listings us)[i]? = some ls)
    {s : String} (hs : s ∈ ls.imports) : s = Symbol.malloc ∨
      ∃ (j : Nat) (v : CompilationUnit), us[j]? = some v ∧ j ≠ i ∧ ∃ r ∈ v.referents, r.symbol = s := by
  rcases getElem?_listings hok h with ⟨u, k, k', hu, hgives⟩ | ⟨rfl, rfl⟩
  · obtain ⟨cl, hcl, hs⟩ := CompilationUnit.mem_imports_of_gives hgives hs
    refine hs.imp_right fun hs => ?_
    obtain ⟨e, he, rfl⟩ := List.mem_map.mp hs
    obtain ⟨he, hforeign⟩ := List.mem_filter.mp he
    simp only [Bool.and_eq_true, Bool.not_eq_true', bne_iff_ne] at hforeign
    obtain ⟨j, v, hv, howner, -, hr⟩ := exists_routine_of_entry hcheck hlayout hok
      (List.mem_of_find?_eq_some hcl) he hforeign.1
    refine ⟨j, v, hv, ?_, hr⟩
    rintro rfl
    obtain rfl := Option.some.inj (hu.symm.trans hv)
    exact hforeign.2 howner
  · refine (l.mem_imports_tablesListing.mp hs).imp_right fun hs => ?_
    obtain ⟨c, hc, e, he, ha, rfl⟩ := exists_entry_of_selector hcheck hlayout hs
    obtain ⟨j, v, hv, -, -, hr⟩ := exists_routine_of_entry hcheck hlayout hok hc he ha
    exact ⟨j, v, hv, (List.getElem?_eq_some_iff.mp hv).1.ne, hr⟩

/-- Each symbol that a file imports is memory, or another file exports it. -/
theorem import_exported {i : Nat} {ls : Listing} (h : (l.listings us)[i]? = some ls)
    {s : String} (hs : s ∈ ls.imports) : s = Symbol.malloc ∨
      ∃ (j : Nat) (ls' : Listing), j ≠ i ∧ (l.listings us)[j]? = some ls' ∧ s ∈ ls'.defined ∧ s ∈ ls'.exports := by
  refine (exists_referent_of_import hcheck hlayout hok h hs).imp_right ?_
  rintro ⟨j, v, hv, hne, r, hr, rfl⟩
  obtain ⟨ls', k, k', hls', hgives⟩ := exists_listing hok hv
  have hp := CompilationUnit.publishes_of_gives hgives
  have hm := List.mem_map_of_mem (f := (·.symbol)) hr
  refine ⟨j, ls', hne, hls', Listing.mem_defined_of_mem_names ?_, ?_⟩
  · rwa [hp.names]
  · rwa [hp.exports]

/-- Each symbol that a file uses is defined or imported there. -/
theorem used_available {i : Nat} {ls : Listing} (h : (l.listings us)[i]? = some ls)
    {s : String} (hs : s ∈ ls.used) : s ∈ ls.defined ∨ s ∈ ls.imports := by
  obtain ⟨label, hl, rfl⟩ := List.mem_map.mp hs
  rcases getElem?_listings hok h with ⟨u, k, k', hu, hgives⟩ | ⟨rfl, rfl⟩
  · rcases CompilationUnit.references_of_gives hgives hl with
      hd | ⟨s, himport, rfl⟩ | ⟨cl, hcl, e, he, ha, howner, rfl⟩
    · exact .inl (List.mem_map_of_mem hd)
    · exact .inr himport
    · -- the type has the routine itself
      obtain ⟨j, v, hv, howner', -, r, hr, hsymbol⟩ := exists_routine_of_entry hcheck hlayout hok
        (List.mem_of_find?_eq_some hcl) he ha
      have hdistinct := (represents_of_check hcheck).1.distinct
      obtain rfl : u = v := List.inj_on_of_nodup_map hdistinct (List.mem_of_getElem? hu)
        (List.mem_of_getElem? hv) (howner.symm.trans howner')
      refine .inl (Listing.mem_defined_of_mem_names ?_)
      rw [(CompilationUnit.publishes_of_gives hgives).names]
      exact List.mem_map.mpr ⟨r, hr, hsymbol⟩
  · exact l.used_available_tables hs

/-- No file imports what it defines. -/
theorem import_notMem_defined (hnames : ∀ u ∈ us, u.isWellNamed = true) {i : Nat} {ls : Listing}
    (h : (l.listings us)[i]? = some ls) {s : String} (hs : s ∈ ls.imports) : s ∉ ls.defined := by
  obtain ⟨rs, hrs, hp⟩ := publishes_listings hok h
  have hwell : ∀ {rs}, rs ∈ programReferents us → ∀ r ∈ rs, r.isWellNamed = true :=
    fun hrs _ hr => isWellNamed_of_mem_programReferents hnames hrs hr
  have hwell' := hwell (List.mem_of_getElem? hrs)
  rcases exists_referent_of_import hcheck hlayout hok h hs with rfl | ⟨j, v, hv, hne, r, hr, rfl⟩
  · exact Listing.symbol_notMem_defined (r := .malloc) hp hwell' rfl
      (notMem_programReferents (List.mem_of_getElem? hrs) rfl (by simp)) nofun
  · have hvs : (programReferents us)[j]? = some v.referents := getElem?_programReferents hv
    refine Listing.symbol_notMem_defined hp hwell' (hwell (List.mem_of_getElem? hvs) r hr) ?_ ?_
    · have hdisjoint := disjoint_programReferents (represents_of_check hcheck).1.distinct
      exact disjoint_of_getElem? hdisjoint hvs hrs hne hr
    · rintro n rfl
      cases CompilationUnit.owner?_of_mem_referents hr

end

/-- The files of a lawful program link, if all its code can be generated. -/
theorem files_link (us : List CompilationUnit) (allowUnresolved : Bool) (g : Graph) (l : Layout)
    (hcheck : check us allowUnresolved = .ok g) (hlayout : ofGraph g us = .ok l)
    (hnames : ∀ u ∈ us, u.isWellNamed = true) (hok : ∀ e ∈ l.emissions 0 us, e.result = .ok ()) :
    (∀ (i : Nat) (ls : Listing), (l.listings us)[i]? = some ls →
      (∀ s ∈ ls.imports, s = Symbol.malloc ∨ ∃ (j : Nat) (ls' : Listing), j ≠ i ∧ (l.listings us)[j]? = some ls' ∧
        s ∈ ls'.defined ∧ s ∈ ls'.exports) ∧
      (∀ s ∈ ls.used, s ∈ ls.defined ∨ s ∈ ls.imports) ∧
      ∀ s ∈ ls.imports, s ∉ ls.defined) ∧
    (∀ c ∈ l.classes, ∀ e ∈ c.vtable, e.isAbstract = false → ∃ i, l.Enters us i e.label) ∧
    ∀ row ∈ l.selector, ∀ label, some label ∈ row → ∃ i, l.Enters us i label := by
  have hentry : ∀ c ∈ l.classes, ∀ e ∈ c.vtable, e.isAbstract = false → ∃ i, l.Enters us i e.label := by
    intro c hc e he ha
    obtain ⟨i, -, -, -, henters, -⟩ := exists_routine_of_entry hcheck hlayout hok hc he ha
    exact ⟨i, henters⟩
  refine ⟨fun i ls h => ⟨?_, ?_, ?_⟩, hentry, ?_⟩
  · exact fun s hs => import_exported hcheck hlayout hok h hs
  · exact fun s hs => used_available hcheck hlayout hok h hs
  · exact fun s hs => import_notMem_defined hcheck hlayout hok hnames h hs
  · intro row hrow label hlabel
    obtain ⟨c, hc, e, he, ha, rfl⟩ := exists_entry_of_selector hcheck hlayout
      (List.mem_flatten.mpr ⟨row, hrow, hlabel⟩)
    exact hentry c hc e he ha

end Layout

/-- A class of the package `p` that inherits one routine, replaces another and
adds its own, and an interface that it implements with both. -/
def linkedUnits : List CompilationUnit :=
  let body : Block := ⟨[.whileLoop (.ofBool true) (.ret none .zero) .zero], .zero⟩
  let method (name : String) : Member := .method ⟨[], none, name, [], some body, .zero⟩
  [(CompilationUnit.of (.ofClass ⟨[], "B", some (.named "A"), [.named "I"],
      [.ctor ⟨[], "B", [.of (.named "int") "n"], body, .zero⟩, method "f", method "h"], .zero⟩)).withPackage "p",
    (CompilationUnit.interfaceDeclaring "I" ["g", "f"]).withPackage "p",
    (CompilationUnit.of (.ofClass ⟨[], "A", none, [], [method "f", method "g"], .zero⟩)).withPackage "p"]

theorem linkedUnits_link : ∃ g l, check linkedUnits false = .ok g ∧
    Layout.ofGraph g linkedUnits = .ok l ∧ (∀ u ∈ linkedUnits, u.isWellNamed = true) ∧
    (∀ e ∈ l.emissions 0 linkedUnits, e.result = .ok ()) ∧
    ∃ ls, (l.listings linkedUnits)[0]? = some ls ∧ "p_A_g" ∈ ls.imports ∧
      ∃ (j : Nat) (ls' : Listing), j ≠ 0 ∧ (l.listings linkedUnits)[j]? = some ls' ∧
        "p_A_g" ∈ ls'.defined ∧ "p_A_g" ∈ ls'.exports := by
  let g := (Graph.empty.declareAll linkedUnits).1
  obtain ⟨l, hlayout⟩ : ∃ l, Layout.ofGraph g linkedUnits = .ok l := ⟨_, rfl⟩
  have hnames : ∀ u ∈ linkedUnits, u.isWellNamed = true := by decide
  have hok : ∀ e ∈ l.emissions 0 linkedUnits, e.result = .ok () := by
    cases hlayout
    decide +kernel
  obtain ⟨ls, hls, himport⟩ : ∃ ls, (l.listings linkedUnits)[0]? = some ls ∧ "p_A_g" ∈ ls.imports := by
    cases hlayout
    exact ⟨_, rfl, by decide +kernel⟩
  have hlinks := (Layout.files_link linkedUnits false g l rfl hlayout hnames hok).1 0 ls hls
  exact ⟨g, l, rfl, hlayout, hnames, hok, ls, hls, himport,
    (hlinks.1 "p_A_g" himport).resolve_left (by decide)⟩

/-- The files of the program are written into a directory with room for them. -/
theorem linkedUnits_run : ∃ l d' paths,
    Layout.ofGraph (Graph.empty.declareAll linkedUnits).1 linkedUnits = .ok l ∧
    generateAll ⟨"out", false, true⟩ l linkedUnits usedDirectory = (d', .ok paths) := by
  obtain ⟨l, hlayout⟩ : ∃ l, Layout.ofGraph (Graph.empty.declareAll linkedUnits).1 linkedUnits = .ok l :=
    ⟨_, rfl⟩
  have hok : ∀ e ∈ l.emissions 0 linkedUnits, e.result = .ok () := by
    cases hlayout
    decide +kernel
  have hqualified : ∀ u ∈ linkedUnits,
      Text.isQualified u.qualifiedName = true ∧ '/' ∉ u.qualifiedName.toList := by decide
  have haccepts : ∀ file ∈ outputFiles linkedUnits,
      Options.Accepts ⟨"out", false, true⟩ usedDirectory file := by
    intro file hfile
    rw [Options.accepts_iff (isPlain_of_mem_outputFiles hqualified hfile)]
    revert file
    decide +kernel
  obtain ⟨d', hrun, -⟩ := generateAll_of_ok (by decide) hqualified haccepts hok
  exact ⟨l, d', _, hlayout, hrun⟩

/-! ### Symbols that are defined once -/

/-- The parameter types of each constructor. -/
def ClassDecl.constructorTypes (c : ClassDecl) : List (List ParameterType) :=
  c.constructors.map fun k => k.parameters.map fun p => .ofTypeRef p.type

/-- The methods of a class have different signatures, so its entry points
differ if its constructors do. -/
theorem CompilationUnit.nodup_referents_iff {u : CompilationUnit} {c : ClassDecl}
    (hd : u.decl = .ofClass c)
    (hm : (c.methods.map fun m => Method.signatureOf m.name m.parameters).Nodup) :
    u.referents.Nodup ↔ c.constructorTypes.Nodup := by
  simp only [referents, hd]
  rw [ClassDecl.methods, List.map_filterMap, List.Nodup, List.pairwise_filterMap] at hm
  rw [List.nodup_append, List.Nodup, List.pairwise_filterMap, ClassDecl.constructorTypes,
    ClassDecl.constructors, List.map_filterMap, List.Nodup, List.pairwise_filterMap]
  constructor
  · rintro ⟨h, -, -⟩
    refine h.imp fun {a b} hne ps hps ps' hps' he => ?_
    cases a with
    | ctor k =>
      cases b with
      | ctor k' =>
        obtain rfl := Option.some.inj hps
        obtain rfl := Option.some.inj hps'
        exact hne _ rfl _ rfl (congrArg (Referent.ctor u.qualifiedName) he)
      | _ => cases hps'
    | _ => cases hps
  · refine fun h => ⟨(hm.and h).imp fun {a b} hne r hr r' hr' he => ?_, ?_, ?_⟩
    · subst he
      rcases Member.referent?_cases hr with ⟨m, rfl, rfl⟩ | ⟨k, rfl, rfl⟩
      · rcases Member.referent?_cases hr' with ⟨m', rfl, he⟩ | ⟨k', rfl, he⟩
        · exact hne.1 _ rfl _ rfl (Referent.method.inj he).2
        · cases he
      · rcases Member.referent?_cases hr' with ⟨m', rfl, he⟩ | ⟨k', rfl, he⟩
        · cases he
        · exact hne.2 _ rfl _ rfl (Referent.ctor.inj he).2
    · simp
    · intro r hr r' hr' he
      subst he
      obtain ⟨member, -, hr⟩ := List.mem_filterMap.mp hr
      rcases Member.referent?_cases hr with ⟨m, -, rfl⟩ | ⟨k, -, rfl⟩ <;> simp at hr'

/-- The methods of a unit's type have different signatures. -/
theorem CompilationUnit.nodup_signatures {us : List CompilationUnit} {allowUnresolved : Bool} {g : Graph}
    (hr : g.Represents us) (hl : g.Lawful allowUnresolved) {u : CompilationUnit} (hu : u ∈ us)
    {c : ClassDecl} (hd : u.decl = .ofClass c) :
    (c.methods.map fun m => Method.signatureOf m.name m.parameters).Nodup := by
  obtain ⟨id, hid, hdesc⟩ := hr.entered u hu
  have hmethods : (g.node id).methods = c.methods.map (Method.ofDecl u.qualifiedName) := by
    have h : (g.node id).methods = u.decl.methods u.qualifiedName := congrArg (·.methods) hdesc.bare
    rwa [hd] at h
  have hdistinct := (hl.own id hid).distinct
  rw [hmethods, List.map_map] at hdistinct
  exact hdistinct

namespace Layout

/-- The symbols that the files of a program define, file by file. -/
theorem names_listings {l : Layout} {us : List CompilationUnit}
    (hok : ∀ e ∈ l.emissions 0 us, e.result = .ok ()) :
    (l.listings us).map Listing.names = (programReferents us).map (·.map (·.symbol)) := by
  refine List.ext_getElem? fun i => ?_
  rw [List.getElem?_map, List.getElem?_map]
  rcases hls : (l.listings us)[i]? with _ | ls
  · have hlength : (l.listings us).length = (programReferents us).length := by
      simp [listings, programReferents, length_emissions]
    rw [List.getElem?_eq_none_iff, hlength, ← List.getElem?_eq_none_iff] at hls
    rw [hls]
    rfl
  · obtain ⟨rs, hrs, hp⟩ := publishes_listings hok hls
    rw [hrs, Option.map_some, Option.map_some, hp.names]

/-- No symbol of a lawful program is defined twice, if and only if no class has
two constructors with the same parameter types. -/
theorem nodup_names_iff (us : List CompilationUnit) (allowUnresolved : Bool) (g : Graph) (l : Layout)
    (hcheck : check us allowUnresolved = .ok g) (hnames : ∀ u ∈ us, u.isWellNamed = true)
    (hok : ∀ e ∈ l.emissions 0 us, e.result = .ok ()) :
    ((l.listings us).flatMap Listing.names).Nodup ↔
      ∀ u ∈ us, ∀ c, u.decl = .ofClass c → c.constructorTypes.Nodup := by
  obtain ⟨hr, hl⟩ := represents_of_check hcheck
  -- symbols differ where the things they stand for do
  have hsymbols : ((l.listings us).flatMap Listing.names).Nodup ↔ (programReferents us).flatten.Nodup := by
    rw [List.flatMap_def, names_listings hok, ← List.map_flatten]
    refine ⟨fun h => h.of_map, fun h => h.map_on fun r hr r' hr' he => ?_⟩
    obtain ⟨rs, hrs, hr⟩ := List.mem_flatten.mp hr
    obtain ⟨rs', hrs', hr'⟩ := List.mem_flatten.mp hr'
    exact Referent.symbol_inj (isWellNamed_of_mem_programReferents hnames hrs hr)
      (isWellNamed_of_mem_programReferents hnames hrs' hr') he
  rw [hsymbols, List.nodup_flatten, and_iff_left (disjoint_programReferents hr.distinct),
    programReferents, List.forall_mem_append, List.forall_mem_map, and_iff_left (by simp)]
  refine forall₂_congr fun u hu => ?_
  constructor
  · intro h c hd
    exact (u.nodup_referents_iff hd (u.nodup_signatures hr hl hu hd)).mp h
  · intro h
    rcases hd : u.decl with c | i
    · exact (u.nodup_referents_iff hd (u.nodup_signatures hr hl hu hd)).mpr (h c hd)
    · simp [CompilationUnit.referents, hd]

end Layout

theorem linkedUnits_names : ∃ g l, check linkedUnits false = .ok g ∧
    Layout.ofGraph g linkedUnits = .ok l ∧ (∀ u ∈ linkedUnits, u.isWellNamed = true) ∧
    (∀ e ∈ l.emissions 0 linkedUnits, e.result = .ok ()) ∧
    ((l.listings linkedUnits).flatMap Listing.names).Nodup := by
  let g := (Graph.empty.declareAll linkedUnits).1
  obtain ⟨l, hlayout⟩ : ∃ l, Layout.ofGraph g linkedUnits = .ok l := ⟨_, rfl⟩
  have hnames : ∀ u ∈ linkedUnits, u.isWellNamed = true := by decide
  have hok : ∀ e ∈ l.emissions 0 linkedUnits, e.result = .ok () := by
    cases hlayout
    decide +kernel
  refine ⟨g, l, rfl, hlayout, hnames, hok, ?_⟩
  rw [Layout.nodup_names_iff linkedUnits false g l rfl hnames hok]
  intro u hu c hd
  simp only [linkedUnits, List.mem_cons, List.not_mem_nil, or_false] at hu
  rcases hu with rfl | rfl | rfl
  · obtain rfl := TypeDecl.ofClass.inj hd
    decide
  · cases hd
  · obtain rfl := TypeDecl.ofClass.inj hd
    decide

/-- A class with two constructors without parameters. -/
def twinConstructors : CompilationUnit :=
  .of (.ofClass ⟨[], "A", none, [],
    [.ctor ⟨[], "A", [], ⟨[], .zero⟩, .zero⟩, .ctor ⟨[], "A", [], ⟨[], .zero⟩, .zero⟩], .zero⟩)

/-- The class is lawful and its code can be generated, but its file defines the
entry point of the constructors twice. -/
theorem twinConstructors_defined_twice : ∃ g l, check [twinConstructors] false = .ok g ∧
    Layout.ofGraph g [twinConstructors] = .ok l ∧ twinConstructors.isWellNamed = true ∧
    (∀ e ∈ l.emissions 0 [twinConstructors], e.result = .ok ()) ∧
    ((l.listings [twinConstructors]).flatMap Listing.names).count "__ctor_A" = 2 := by
  let g := (Graph.empty.declareAll [twinConstructors]).1
  obtain ⟨l, hlayout⟩ : ∃ l, Layout.ofGraph g [twinConstructors] = .ok l := ⟨_, rfl⟩
  refine ⟨g, l, rfl, hlayout, by decide, ?_, ?_⟩
  · cases hlayout
    decide +kernel
  · cases hlayout
    decide +kernel

end ClassCompiler
