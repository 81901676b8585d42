import ClassCompiler.Proofs.Codegen.Declarations
import ClassCompiler.Proofs.Output.Files

/-!
# What a run that succeeds has written

Nothing is asked here of the names of the units: two of them may share a file,
and a name may lead to another directory. A run that succeeds has still written
all of its files, one behind the other, each with the whole text of its unit or
of the tables; at a path is the text of the last file that went there.

A device without room never takes the file of a unit, since its text is never
empty.

Key definition: `Directory.Received`.

Key theorems: `generateUnit_ok` (one unit), `generateUnits_ok` (a run over
units), `generateAll_ok`.
-/

namespace ClassCompiler

/-- A directory after files were written to it one behind the other: at a path
is the text of the last file that went there, or what was there before. -/
structure Directory.Received (d : Directory) (files : List (String × String)) (d' : Directory) :
    Prop where
  base : d'.base = d.base
  get? : ∀ p, d'.get? p = ((files.reverse.find? fun f => d.pathOf f.1 = p).map fun f =>
    Entry.file f.2).or (d.get? p)

namespace Directory

variable {d d₁ d₂ : Directory} {files more : List (String × String)} {file text : String}

theorem Received.nil (d : Directory) : d.Received [] d := ⟨rfl, fun _ => rfl⟩

theorem ChangesTo.received (h : d.ChangesTo (d.pathOf file) (some (.file text)) d₁) :
    d.Received [(file, text)] d₁ := by
  refine ⟨h.base, fun p => ?_⟩
  rw [h.get?, List.reverse_singleton, List.find?_singleton]
  by_cases hp : d.pathOf file = p
  · simp [hp]
  · simp [hp, Ne.symm hp]

theorem Received.append (h : d.Received files d₁) (h' : d₁.Received more d₂) :
    d.Received (files ++ more) d₂ := by
  refine ⟨h'.base.trans h.base, fun p => ?_⟩
  simp only [h'.get?, h.get?, pathOf_congr h.base, List.reverse_append, List.find?_append,
    Option.map_or, Option.or_assoc]

end Directory

/-! ### Texts that are not empty -/

theorem Listing.text_ne_empty_of_segment {ls : Listing} {name : String} (h : .segment name ∈ ls)
    (comments : Bool) : ls.text comments ≠ "" := by
  intro he
  have hmem : 's' ∈ (ls.text comments).toList := by
    rw [text, String.toList_join, List.flatMap_map, List.mem_flatMap]
    exact ⟨_, h, by simp [Line.written, Line.isComment, Line.text]⟩
  rw [he] at hmem
  cases hmem

theorem CompilationUnit.segment_mem_emit (l : Layout) (u : CompilationUnit) (n : Nat) :
    .segment ".text" ∈ (u.emit l n).lines := by
  have hhead : Emit.lines [.header u.qualifiedName, .segment ".text"] n =
      ⟨[.header u.qualifiedName, .segment ".text"], n, .ok ()⟩ := rfl
  rw [emit_eq, Emit.bind_of_ok hhead]
  exact List.mem_append_left _ (List.mem_cons_of_mem _ List.mem_cons_self)

theorem Layout.segment_mem_tablesListing (l : Layout) : .segment ".data" ∈ l.tablesListing := by
  simp [tablesListing]

/-- Text that is not empty does not go to a device without room. -/
theorem Emission.writtenTo_eq_ok {e : Emission α} {entry : Option Entry} {comments : Bool}
    {text : String} (h : e.writtenTo entry comments = .ok text) (htext : e.lines.text comments ≠ "") :
    entry ≠ some .fullDevice ∧ (∃ a, e.result = .ok a) ∧ text = e.lines.text comments := by
  have hok : ∀ {t}, e.text comments = .ok t → (∃ a, e.result = .ok a) ∧ t = e.lines.text comments := by
    intro t ht
    unfold Emission.text at ht
    split at ht
    · cases ht
    · rename_i a ha
      exact ⟨⟨a, ha⟩, (Except.ok.inj ht).symm⟩
  unfold writtenTo at h
  split at h
  · unfold onFullDevice at h
    split at h
    · cases h
    · split at h
      · cases h
      · rename_i t ht
        split at h
        · rename_i hempty
          exact absurd ((hok ht).2.symm.trans hempty) htext
        · cases h
  · rename_i hentry
    exact ⟨fun he => hentry he, hok h⟩

/-! ### One file after the other -/

namespace Options

variable {o : Options} {d d' : Directory} {file : String}

/-- What creating a file says of the place that it was created at. -/
theorem accepts_of_create (h : o.create d file = .ok d')
    (hroom : d'.get? (d.pathOf file) ≠ some .fullDevice) : o.Accepts d file := by
  refine ⟨⟨d', h⟩, fun hfull => hroom ?_⟩
  unfold create at h
  split at h
  · cases h
  · unfold Directory.create at h
    split at h
    · cases h
    · rw [if_pos hfull] at h
      cases h
      exact hfull

end Options

variable {o : Options} {l : Layout}

/-- A unit that was written has code, and its file has all of the text. -/
theorem generateUnit_ok {out out' : Output} {u : CompilationUnit} {path : String}
    (h : generateUnit o l out u = (out', .ok path)) :
    (u.emit l out.nextLabel).result = .ok () ∧
      out'.nextLabel = (u.emit l out.nextLabel).nextLabel ∧
      path = o.path (Symbol.unitFile u.qualifiedName) ∧
      out.directory.Received [(Symbol.unitFile u.qualifiedName,
        (u.emit l out.nextLabel).lines.text o.comments)] out'.directory := by
  have haccepts : o.Accepts out.directory (Symbol.unitFile u.qualifiedName) := by
    simp only [generateUnit] at h
    split at h
    · cases h
    · rename_i d hcreate
      split at h
      · cases h
      · rename_i text htext
        have hne := Listing.text_ne_empty_of_segment (u.segment_mem_emit l out.nextLabel) o.comments
        exact Options.accepts_of_create hcreate (Emission.writtenTo_eq_ok htext hne).1
  obtain ⟨d', hd', hunit⟩ := generateUnit_of_accepts (l := l) out haccepts
  rw [hunit] at h
  rcases hresult : (u.emit l out.nextLabel).result with err | ⟨⟩
  · rw [hresult] at h
    cases h
  · rw [hresult] at h
    rw [Emission.entry_of_ok hresult] at hd'
    cases h
    exact ⟨rfl, rfl, rfl, hd'.received⟩

/-- Tables that were written have all of their text in their file. -/
theorem generateTables_ok {d d' : Directory} {path : String}
    (h : generateTables o l d = (d', .ok path)) :
    path = o.path Symbol.tablesFile ∧
      d.Received [(Symbol.tablesFile, l.tablesListing.text o.comments)] d' := by
  have haccepts : o.Accepts d Symbol.tablesFile := by
    simp only [generateTables] at h
    split at h
    · cases h
    · rename_i d₁ hcreate
      split at h
      · cases h
      · rename_i text htext
        have hne := Listing.text_ne_empty_of_segment l.segment_mem_tablesListing o.comments
        exact Options.accepts_of_create hcreate (Emission.writtenTo_eq_ok htext hne).1
  obtain ⟨d₁, hd₁, hwrite⟩ := generateTables_of_accepts (l := l) haccepts
  rw [hwrite] at h
  cases h
  exact ⟨rfl, hd₁.received⟩

namespace Layout

/-- The names and texts of the units' files, from the label `n` on. -/
def unitFiles (l : Layout) (comments : Bool) (n : Nat) (us : List CompilationUnit) :
    List (String × String) :=
  (us.map fun u => Symbol.unitFile u.qualifiedName).zip
    ((l.emissions n us).map fun e => e.lines.text comments)

/-- The names and texts of all files of a program, in the order of their writing. -/
def files (l : Layout) (comments : Bool) (us : List CompilationUnit) : List (String × String) :=
  (outputFiles us).zip ((l.listings us).map fun ls => ls.text comments)

theorem files_eq (l : Layout) (comments : Bool) (us : List CompilationUnit) :
    l.files comments us =
      l.unitFiles comments 0 us ++ [(Symbol.tablesFile, l.tablesListing.text comments)] := by
  have hlength : (us.map fun u => Symbol.unitFile u.qualifiedName).length =
      ((l.emissions 0 us).map fun e => e.lines.text comments).length := by
    rw [List.length_map, List.length_map, length_emissions]
  rw [files, unitFiles, outputFiles, listings, List.map_append, List.map_map]
  exact List.zip_append hlength

end Layout

/-- A run over units that succeeds has written the file of each, one behind the
other. -/
theorem generateUnits_ok : ∀ {us : List CompilationUnit} {out out' : Output} {paths : List String},
    generateUnits o l out us = (out', .ok paths) →
    (∀ e ∈ l.emissions out.nextLabel us, e.result = .ok ()) ∧
      out'.nextLabel = l.labelAfter out.nextLabel us ∧
      paths = us.map (fun u => o.path (Symbol.unitFile u.qualifiedName)) ∧
      out.directory.Received (l.unitFiles o.comments out.nextLabel us) out'.directory
  | [], out, out', paths, h => by
    cases h
    exact ⟨List.forall_mem_nil _, rfl, rfl, .nil _⟩
  | u :: us, out, out', paths, h => by
    rw [generateUnits] at h
    split at h
    · cases h
    · rename_i out₁ path hunit
      split at h
      · cases h
      · rename_i out₂ rest hrest
        cases h
        obtain ⟨hresult, hnext, rfl, hfirst⟩ := generateUnit_ok hunit
        obtain ⟨hresults, hlast, rfl, hfiles⟩ := generateUnits_ok hrest
        rw [hnext] at hresults hlast hfiles
        exact ⟨List.forall_mem_cons.mpr ⟨hresult, hresults⟩, hlast, rfl, hfirst.append hfiles⟩

/-- A run that succeeds has code for all units, and has written all files of the
program. -/
theorem generateAll_ok {us : List CompilationUnit} {d d' : Directory} {paths : List String}
    (h : generateAll o l us d = (d', .ok paths)) :
    (∀ e ∈ l.emissions 0 us, e.result = .ok ()) ∧ paths = (outputFiles us).map o.path ∧
      (∃ out unitPaths, generateUnits o l ⟨d, 0⟩ us = (out, .ok unitPaths) ∧
        out.nextLabel = l.labelAfter 0 us) ∧
      d.Received (l.files o.comments us) d' := by
  rw [generateAll] at h
  split at h
  · cases h
  · rename_i out unitPaths hunits
    split at h
    · cases h
    · rename_i d₁ path htables
      cases h
      obtain ⟨hresults, hnext, rfl, hfiles⟩ := generateUnits_ok hunits
      obtain ⟨rfl, hlast⟩ := generateTables_ok htables
      refine ⟨hresults, ?_, ⟨out, _, hunits, hnext⟩, ?_⟩
      · rw [outputFiles, List.map_append, List.map_map]
        rfl
      · rw [Layout.files_eq]
        exact hfiles.append hlast

end ClassCompiler
