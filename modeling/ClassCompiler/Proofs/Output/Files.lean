import ClassCompiler.Output.Compile
import ClassCompiler.Proofs.Symbol.Mangling

/-!
# The files that a program is written to

Each unit is written to a file of its own name, and two units never share one:
a file name can be read back to the qualified name, and the name of the tables'
file is left to the tables. So a unit that fails takes nothing away but its own
file, and the units before it keep what they were given.

What a run does to a directory is told by the entries at its paths. One unit
changes the entry at the path of its file only; a run over units is then
followed one unit after another, with the count of temporary labels.

Key definitions: `Layout.emissions`, `Layout.listings`, `Options.Accepts`, `Directory.ChangesTo`,
`Emission.entry`.

Key theorems: `generateUnit_of_accepts` (one unit), `generateUnits_of_ok` (a run
over units), `generateAll_files`.
-/

namespace ClassCompiler

namespace Layout

/-- The code of the units, each from the temporary label on that the one before
it came to. -/
def emissions (l : Layout) : Nat → List CompilationUnit → List (Emission Unit)
  | _, [] => []
  | n, u :: us => u.emit l n :: l.emissions (u.emit l n).nextLabel us

/-- The temporary label that the units come to. -/
def labelAfter (l : Layout) (n : Nat) (us : List CompilationUnit) : Nat :=
  us.foldl (fun n u => (u.emit l n).nextLabel) n

/-- The files of a program: one for each unit, and one for the tables. -/
def listings (l : Layout) (us : List CompilationUnit) : List Listing :=
  (l.emissions 0 us).map (·.lines) ++ [l.tablesListing]

theorem length_emissions (l : Layout) : ∀ (n : Nat) (us : List CompilationUnit),
    (l.emissions n us).length = us.length
  | _, [] => rfl
  | n, u :: us => by rw [emissions, List.length_cons, length_emissions, List.length_cons]

theorem emissions_append (l : Layout) : ∀ (n : Nat) (us vs : List CompilationUnit),
    l.emissions n (us ++ vs) = l.emissions n us ++ l.emissions (l.labelAfter n us) vs
  | _, [], _ => rfl
  | n, u :: us, vs => by
    rw [List.cons_append, emissions, emissions_append]
    rfl

theorem getElem?_emissions {l : Layout} {us : List CompilationUnit} {n i : Nat} {u : CompilationUnit}
    (h : us[i]? = some u) :
    (l.emissions n us)[i]? = some (u.emit l (l.labelAfter n (us.take i))) := by
  obtain ⟨hlt, hu⟩ := List.getElem?_eq_some_iff.mp h
  have hsplit : us = us.take i ++ u :: us.drop (i + 1) := by
    rw [← hu, List.getElem_cons_drop, List.take_append_drop]
  have hlength : (l.emissions n (us.take i)).length = i := by
    rw [length_emissions, List.length_take, Nat.min_eq_left hlt.le]
  conv_lhs => rw [hsplit, emissions_append, emissions]
  rw [List.getElem?_append_right hlength.le, hlength, Nat.sub_self]
  rfl

theorem take_emissions (l : Layout) (us : List CompilationUnit) (n i : Nat) :
    (l.emissions n us).take i = l.emissions n (us.take i) := by
  induction us generalizing n i with
  | nil => simp [emissions]
  | cons u us ih =>
    cases i with
    | zero => rfl
    | succ i => exact congrArg (u.emit l n :: ·) (ih _ i)

end Layout

/-! ### File names -/

namespace Symbol

theorem slash_notMem_unitFile {q : String} (h : '/' ∉ q.toList) : '/' ∉ (unitFile q).toList := by
  rw [unitFile, String.toList_append, List.mem_append]
  rintro (hm | hm)
  · rcases mem_mangle hm with hc | hc | hc | hc
    · cases hc
    · cases hc
    · cases hc
    · exact h hc.1
  · simp at hm

theorem unitFile_ne_empty (q : String) : unitFile q ≠ "" := by
  intro he
  have hlist := congrArg String.toList he
  simp [unitFile] at hlist

end Symbol

/-- A name that is one step from a directory. -/
def Path.IsPlain (file : String) : Prop := '/' ∉ file.toList ∧ file ≠ ""

theorem Path.isAbsolute_of_isPlain {file : String} (h : IsPlain file) : isAbsolute file = false := by
  rw [isAbsolute, decide_eq_false_iff_not]
  exact fun hm => h.1 (List.mem_of_mem_head? hm)

theorem Directory.pathOf_congr {d d' : Directory} (h : d'.base = d.base) (file : String) :
    d'.pathOf file = d.pathOf file := by
  rw [pathOf, pathOf, h]

theorem Directory.pathOf_of_isPlain (d : Directory) {file : String} (h : Path.IsPlain file) :
    d.pathOf file = d.base ++ [file] := by
  rw [pathOf, Path.isAbsolute_of_isPlain h, Path.steps_of_plain h.1 h.2]
  rfl

theorem Directory.pathOf_inj {d : Directory} {file file' : String} (h : Path.IsPlain file)
    (h' : Path.IsPlain file') (he : d.pathOf file = d.pathOf file') : file = file' := by
  rw [d.pathOf_of_isPlain h, d.pathOf_of_isPlain h'] at he
  simpa using he

section
variable {us : List CompilationUnit} (hnames : (us.map (·.qualifiedName)).Nodup)
  (hqualified : ∀ u ∈ us, Text.isQualified u.qualifiedName = true ∧ '/' ∉ u.qualifiedName.toList)
include hqualified

theorem isPlain_unitFile {u : CompilationUnit} (hu : u ∈ us) :
    Path.IsPlain (Symbol.unitFile u.qualifiedName) :=
  ⟨Symbol.slash_notMem_unitFile (hqualified u hu).2, Symbol.unitFile_ne_empty _⟩

theorem isPlain_of_mem_outputFiles {file : String} (h : file ∈ outputFiles us) : Path.IsPlain file := by
  rcases List.mem_append.mp h with h | h
  · obtain ⟨u, hu, rfl⟩ := List.mem_map.mp h
    exact isPlain_unitFile hqualified hu
  · obtain rfl := List.mem_singleton.mp h
    exact ⟨by decide, by decide⟩

include hnames

/-- No two files of a program have one name. -/
theorem nodup_outputFiles : (outputFiles us).Nodup := by
  rw [outputFiles, List.nodup_append]
  refine ⟨?_, List.nodup_singleton _, ?_⟩
  · rw [List.nodup_map_iff_inj_on hnames.of_map]
    intro u hu v hv he
    have hq := Symbol.unitFile_inj (hqualified u hu).1 (hqualified v hv).1 he
    exact List.inj_on_of_nodup_map hnames hu hv hq
  · intro file hfile file' hfile'
    obtain ⟨u, hu, rfl⟩ := List.mem_map.mp hfile
    obtain rfl := List.mem_singleton.mp hfile'
    exact Symbol.unitFile_ne_tablesFile (hqualified u hu).1

end

/-! ### One file -/

/-- A file can be created, and what is written to it finds room. -/
def Options.Accepts (o : Options) (d : Directory) (file : String) : Prop :=
  (∃ d', o.create d file = .ok d') ∧ d.get? (d.pathOf file) ≠ some .fullDevice

/-- A directory with another entry at one path. -/
structure Directory.ChangesTo (d : Directory) (path : Path) (entry : Option Entry) (d' : Directory) :
    Prop where
  base : d'.base = d.base
  get? : ∀ p, d'.get? p = if p = path then entry else d.get? p

namespace Directory

variable {d d' d'' : Directory} {path : Path} {entry entry' : Option Entry}

theorem ChangesTo.trans (h : d.ChangesTo path entry d') (h' : d'.ChangesTo path entry' d'') :
    d.ChangesTo path entry' d'' := by
  refine ⟨h'.base.trans h.base, fun p => ?_⟩
  rw [h'.get?, h.get?]
  split <;> rfl

theorem changesTo_set (d : Directory) (path : Path) (entry : Entry) :
    d.ChangesTo path (some entry) (d.set path entry) :=
  ⟨rfl, fun p => d.get?_set path p entry⟩

theorem changesTo_remove (d : Directory) (path : Path) : d.ChangesTo path none (d.remove path) :=
  ⟨rfl, fun p => d.get?_remove path p⟩

theorem changesTo_write {text : String} (h : d.get? path ≠ some .fullDevice) :
    d.ChangesTo path (some (.file text)) (d.write path text) := by
  rw [write, if_neg h]
  exact d.changesTo_set path _

end Directory

namespace Options

variable {o : Options} {d d' : Directory} {file : String}

theorem changesTo_create (h : o.Accepts d file) :
    ∃ d', o.create d file = .ok d' ∧ d.ChangesTo (d.pathOf file) (some (.file "")) d' := by
  obtain ⟨⟨d', hcreate⟩, hroom⟩ := h
  refine ⟨d', hcreate, ?_⟩
  unfold create at hcreate
  split at hcreate
  · cases hcreate
  · unfold Directory.create at hcreate
    split at hcreate
    · cases hcreate
    · rw [if_neg hroom] at hcreate
      cases hcreate
      exact d.changesTo_set _ _

/-- Whether a plain file is accepted depends on the entry at its path only. -/
theorem accepts_iff (h : Path.IsPlain file) : o.Accepts d file ↔
    Path.textFault? (o.path file) = none ∧ ¬ Path.nameLimit < file.utf8ByteSize ∧
      d.get? (d.pathOf file) ≠ some .directory ∧ d.get? (d.pathOf file) ≠ some .fullDevice := by
  have hobstacle : d.obstacle? (if Path.isAbsolute file then [] else d.base) (Path.steps file) =
      if Path.nameLimit < file.utf8ByteSize then some .nameTooLong
      else if d.get? (d.pathOf file) = some .directory then some .isDirectory else none := by
    rw [Path.isAbsolute_of_isPlain h, Path.steps_of_plain h.1 h.2, d.pathOf_of_isPlain h]
    rfl
  rw [Accepts, create, Directory.create, hobstacle]
  rcases Path.textFault? (o.path file) with _ | fault
  · by_cases hlimit : Path.nameLimit < file.utf8ByteSize
    · simp [hlimit]
    · by_cases hdirectory : d.get? (d.pathOf file) = some .directory
      · simp [hlimit, hdirectory]
      · simp [hlimit, hdirectory]
  · simp

theorem Accepts.of_get? (h : o.Accepts d file) (hplain : Path.IsPlain file) (hbase : d'.base = d.base)
    (hget : d'.get? (d.pathOf file) = d.get? (d.pathOf file)) : o.Accepts d' file := by
  rw [accepts_iff hplain] at h ⊢
  rwa [Directory.pathOf_congr hbase, hget]

end Options

namespace Emission

/-- What is at the path of a file after it was created for an emission: all of
the text, or nothing. -/
def entry (comments : Bool) (e : Emission α) : Option Entry :=
  match e.result with
  | .ok _ => some (.file (e.lines.text comments))
  | .error _ => none

theorem entry_of_ok {e : Emission α} {a : α} (h : e.result = .ok a) (comments : Bool) :
    e.entry comments = some (.file (e.lines.text comments)) := by
  rw [entry, h]

theorem writtenTo_file (text : String) (comments : Bool) (e : Emission α) :
    e.writtenTo (some (.file text)) comments = e.text comments := rfl

end Emission

/-- Writing a unit changes the entry at the path of its file, and nothing else. -/
theorem generateUnit_of_accepts {o : Options} {l : Layout} (out : Output) {u : CompilationUnit}
    (h : o.Accepts out.directory (Symbol.unitFile u.qualifiedName)) :
    ∃ d', out.directory.ChangesTo (out.directory.pathOf (Symbol.unitFile u.qualifiedName))
        ((u.emit l out.nextLabel).entry o.comments) d' ∧
      generateUnit o l out u = (⟨d', (u.emit l out.nextLabel).nextLabel⟩,
        match (u.emit l out.nextLabel).result with
        | .ok _ => .ok (o.path (Symbol.unitFile u.qualifiedName))
        | .error err => .error (err.inFile (o.path (Symbol.unitFile u.qualifiedName)))) := by
  obtain ⟨d₁, hcreate, hd₁⟩ := Options.changesTo_create h
  have hempty : d₁.get? (out.directory.pathOf (Symbol.unitFile u.qualifiedName)) = some (.file "") := by
    rw [hd₁.get?, if_pos rfl]
  simp only [generateUnit, hcreate, hempty, Emission.writtenTo_file, Emission.text, Emission.entry]
  rcases (u.emit l out.nextLabel).result with err | _
  · exact ⟨_, hd₁.trans (d₁.changesTo_remove _), rfl⟩
  · refine ⟨_, hd₁.trans (Directory.changesTo_write ?_), rfl⟩
    rw [hempty]
    simp

/-- Writing the tables changes the entry at the path of their file only. -/
theorem generateTables_of_accepts {o : Options} {l : Layout} {d : Directory}
    (h : o.Accepts d Symbol.tablesFile) :
    ∃ d', d.ChangesTo (d.pathOf Symbol.tablesFile)
        (some (.file (l.tablesListing.text o.comments))) d' ∧
      generateTables o l d = (d', .ok (o.path Symbol.tablesFile)) := by
  obtain ⟨d₁, hcreate, hd₁⟩ := Options.changesTo_create h
  have hempty : d₁.get? (d.pathOf Symbol.tablesFile) = some (.file "") := by
    rw [hd₁.get?, if_pos rfl]
  simp only [generateTables, hcreate, hempty, Emission.writtenTo_file, Emission.text,
    Layout.emitTables, Emit.lines]
  refine ⟨_, hd₁.trans (Directory.changesTo_write ?_), rfl⟩
  rw [hempty]
  simp

/-! ### A run over units -/

/-- A directory after units were written to it from the label `n` on: each has
its file with all of its text, and nothing else has changed. -/
structure Directory.Wrote (o : Options) (l : Layout) (n : Nat) (us : List CompilationUnit)
    (d d' : Directory) : Prop where
  base : d'.base = d.base
  files : ∀ {i : Nat} {u : CompilationUnit} {e : Emission Unit}, us[i]? = some u →
    (l.emissions n us)[i]? = some e →
    d'.get? (d.pathOf (Symbol.unitFile u.qualifiedName)) = some (.file (e.lines.text o.comments))
  others : ∀ {p : Path}, (∀ u ∈ us, p ≠ d.pathOf (Symbol.unitFile u.qualifiedName)) →
    d'.get? p = d.get? p

theorem Directory.Wrote.cons {o : Options} {l : Layout} {n : Nat} {u : CompilationUnit}
    {us : List CompilationUnit} {d d₁ d' : Directory}
    (hne : ∀ v ∈ us, d.pathOf (Symbol.unitFile v.qualifiedName) ≠
      d.pathOf (Symbol.unitFile u.qualifiedName))
    (h : d.ChangesTo (d.pathOf (Symbol.unitFile u.qualifiedName))
      (some (.file ((u.emit l n).lines.text o.comments))) d₁)
    (hs : d₁.Wrote o l (u.emit l n).nextLabel us d') : d.Wrote o l n (u :: us) d' := by
  have hpath := Directory.pathOf_congr h.base
  have hfirst : d'.get? (d.pathOf (Symbol.unitFile u.qualifiedName)) =
      some (.file ((u.emit l n).lines.text o.comments)) := by
    rw [hs.others, h.get?, if_pos rfl]
    intro v hv he
    rw [hpath] at he
    exact hne v hv he.symm
  refine ⟨hs.base.trans h.base, fun {i v e} hv he => ?_, fun {p} hp => ?_⟩
  · cases i with
    | zero =>
      obtain rfl := Option.some.inj hv
      obtain rfl := Option.some.inj he
      exact hfirst
    | succ i =>
      rw [← hpath]
      exact hs.files hv he
  · obtain ⟨hpu, hps⟩ := List.forall_mem_cons.mp hp
    rw [hs.others, h.get?, if_neg hpu]
    intro v hv
    rw [hpath]
    exact hps v hv

/-- Units that have files of their own and code for all of them are written one
after the other. -/
theorem generateUnits_of_ok {o : Options} {l : Layout} : ∀ {us : List CompilationUnit} (out : Output),
    (∀ u ∈ us, Path.IsPlain (Symbol.unitFile u.qualifiedName)) →
    (us.map fun u => Symbol.unitFile u.qualifiedName).Nodup →
    (∀ u ∈ us, o.Accepts out.directory (Symbol.unitFile u.qualifiedName)) →
    (∀ e ∈ l.emissions out.nextLabel us, e.result = .ok ()) →
    ∃ d', out.directory.Wrote o l out.nextLabel us d' ∧
      generateUnits o l out us = (⟨d', l.labelAfter out.nextLabel us⟩,
        .ok (us.map fun u => o.path (Symbol.unitFile u.qualifiedName)))
  | [], out, _, _, _, _ => ⟨out.directory, ⟨rfl, nofun, fun _ => rfl⟩, rfl⟩
  | u :: us, out, hplain, hnodup, haccepts, hok => by
    obtain ⟨hu, hplain⟩ := List.forall_mem_cons.mp hplain
    obtain ⟨haccept, haccepts⟩ := List.forall_mem_cons.mp haccepts
    obtain ⟨hresult, hok⟩ := List.forall_mem_cons.mp hok
    obtain ⟨hfresh, hnodup⟩ := List.nodup_cons.mp hnodup
    obtain ⟨d₁, hd₁, hunit⟩ := generateUnit_of_accepts (l := l) out haccept
    rw [Emission.entry_of_ok hresult] at hd₁
    rw [hresult] at hunit
    -- the files of the units that follow are others than that of the first
    have hne : ∀ v ∈ us, out.directory.pathOf (Symbol.unitFile v.qualifiedName) ≠
        out.directory.pathOf (Symbol.unitFile u.qualifiedName) := by
      intro v hv he
      exact hfresh (List.mem_map.mpr ⟨v, hv, Directory.pathOf_inj (hplain v hv) hu he⟩)
    have haccepts₁ : ∀ v ∈ us, o.Accepts d₁ (Symbol.unitFile v.qualifiedName) := by
      intro v hv
      refine (haccepts v hv).of_get? (hplain v hv) hd₁.base ?_
      rw [hd₁.get?, if_neg (hne v hv)]
    obtain ⟨d', hd', hrest⟩ := generateUnits_of_ok ⟨d₁, _⟩ hplain hnodup haccepts₁ hok
    refine ⟨d', hd'.cons hne hd₁, ?_⟩
    simp only [generateUnits, hunit, hrest]
    rfl

/-- A failure after units that were written. -/
theorem generateUnits_append_of_error {o : Options} {l : Layout} {vs : List CompilationUnit}
    {out' out'' : Output} {err : Error} (hvs : generateUnits o l out' vs = (out'', .error err)) :
    ∀ {us : List CompilationUnit} {out : Output} {paths : List String},
    generateUnits o l out us = (out', .ok paths) →
    generateUnits o l out (us ++ vs) = (out'', .error err)
  | [], out, paths, h => by
    obtain ⟨rfl, -⟩ := Prod.mk.inj h
    exact hvs
  | u :: us, out, paths, h => by
    simp only [generateUnits] at h
    split at h
    · cases h
    · rename_i out₁ path hunit
      split at h
      · cases h
      · rename_i out₂ paths' hrest
        obtain ⟨rfl, -⟩ := Prod.mk.inj h
        have ih := generateUnits_append_of_error hvs hrest
        simp only [List.cons_append, generateUnits, hunit, ih]

theorem Options.path_inj {o : Options} {file file' : String} (h : Path.IsPlain file)
    (h' : Path.IsPlain file') (he : o.path file = o.path file') : file = file' := by
  unfold Options.path Path.join at he
  rw [Path.isAbsolute_of_isPlain h, Path.isAbsolute_of_isPlain h', Bool.or_false] at he
  split at he
  · exact he
  · split at he
    · exact (String.append_right_inj _).mp he
    · exact (String.append_right_inj _).mp he

/-- The first files of a program are those of its first units. -/
theorem take_outputFiles {us : List CompilationUnit} {k : Nat} (hk : k ≤ us.length) :
    (outputFiles us).take k = (us.take k).map fun u => Symbol.unitFile u.qualifiedName := by
  rw [outputFiles, List.take_append_of_le_length (by rwa [List.length_map]), List.map_take]

section
variable {o : Options} {l : Layout} {us : List CompilationUnit} {d : Directory}
  (hnames : (us.map (·.qualifiedName)).Nodup)
  (hqualified : ∀ u ∈ us, Text.isQualified u.qualifiedName = true ∧ '/' ∉ u.qualifiedName.toList)
include hnames hqualified

/-- The files of a program stay different wherever they are. -/
theorem nodup_map_outputFiles {β : Type} {f : String → β}
    (hf : ∀ {file file'}, Path.IsPlain file → Path.IsPlain file' → f file = f file' → file = file') :
    ((outputFiles us).map f).Nodup :=
  (nodup_outputFiles hnames hqualified).map_on fun _ h _ h' he =>
    hf (isPlain_of_mem_outputFiles hqualified h) (isPlain_of_mem_outputFiles hqualified h') he

/-- No unit before another has the file of the other. -/
theorem pathOf_ne_of_mem_take {k : Nat} {u : CompilationUnit} (hu : us[k]? = some u) :
    ∀ v ∈ us.take k, d.pathOf (Symbol.unitFile u.qualifiedName) ≠
      d.pathOf (Symbol.unitFile v.qualifiedName) := by
  obtain ⟨hlt, hget⟩ := List.getElem?_eq_some_iff.mp hu
  have hsplit : us = us.take k ++ u :: us.drop (k + 1) := by
    rw [← hget, List.getElem_cons_drop, List.take_append_drop]
  intro v hv he
  have hu' := List.mem_of_getElem? hu
  have hv' := List.mem_of_mem_take hv
  have hfile := Directory.pathOf_inj (isPlain_unitFile hqualified hu')
    (isPlain_unitFile hqualified hv') he
  have hq := Symbol.unitFile_inj (hqualified u hu').1 (hqualified v hv').1 hfile
  rw [hsplit, List.map_append, List.nodup_append] at hnames
  exact hnames.2.2 _ (List.mem_map_of_mem hv) _ List.mem_cons_self hq.symm

variable (haccepts : ∀ file ∈ outputFiles us, o.Accepts d file)
include haccepts

/-- Some of the units, from the first on. -/
theorem generateUnits_of_isPrefix {vs : List CompilationUnit} (hvs : vs <+: us)
    (hok : ∀ e ∈ l.emissions 0 vs, e.result = .ok ()) :
    ∃ d', d.Wrote o l 0 vs d' ∧ generateUnits o l ⟨d, 0⟩ vs = (⟨d', l.labelAfter 0 vs⟩,
      .ok (vs.map fun u => o.path (Symbol.unitFile u.qualifiedName))) := by
  have hfiles : (vs.map fun u => Symbol.unitFile u.qualifiedName) <+: outputFiles us :=
    (List.IsPrefix.map _ hvs).trans (List.prefix_append _ _)
  have hplain : ∀ u ∈ vs, Path.IsPlain (Symbol.unitFile u.qualifiedName) :=
    fun u hu => isPlain_unitFile hqualified (hvs.subset hu)
  have hnodup := (nodup_outputFiles hnames hqualified).sublist hfiles.sublist
  have hroom : ∀ u ∈ vs, o.Accepts d (Symbol.unitFile u.qualifiedName) :=
    fun u hu => haccepts _ (hfiles.subset (List.mem_map.mpr ⟨u, hu, rfl⟩))
  exact generateUnits_of_ok ⟨d, 0⟩ hplain hnodup hroom hok

/-- If all units have code, all files are written. -/
theorem generateAll_of_ok (hok : ∀ e ∈ l.emissions 0 us, e.result = .ok ()) :
    ∃ d', generateAll o l us d = (d', .ok ((outputFiles us).map o.path)) ∧
      (∀ (i : Nat) (u : CompilationUnit) (e : Emission Unit), us[i]? = some u →
        (l.emissions 0 us)[i]? = some e →
        d'.get? (d.pathOf (Symbol.unitFile u.qualifiedName)) = some (.file (e.lines.text o.comments))) ∧
      d'.get? (d.pathOf Symbol.tablesFile) = some (.file (l.tablesListing.text o.comments)) ∧
      ∀ p, p ∉ (outputFiles us).map d.pathOf → d'.get? p = d.get? p := by
  obtain ⟨d₁, hd₁, hunits⟩ := generateUnits_of_isPrefix hnames hqualified haccepts (List.prefix_refl us) hok
  have htables : Symbol.tablesFile ∈ outputFiles us := List.mem_append_right _ (List.mem_singleton_self _)
  have hplain := isPlain_of_mem_outputFiles hqualified htables
  have hpath := Directory.pathOf_congr hd₁.base
  -- no unit has the file of the tables
  have hne : ∀ u ∈ us, d.pathOf Symbol.tablesFile ≠ d.pathOf (Symbol.unitFile u.qualifiedName) := by
    intro u hu he
    exact Symbol.unitFile_ne_tablesFile (hqualified u hu).1
      (Directory.pathOf_inj (isPlain_unitFile hqualified hu) hplain he.symm)
  have haccept : o.Accepts d₁ Symbol.tablesFile :=
    (haccepts _ htables).of_get? hplain hd₁.base (hd₁.others hne)
  obtain ⟨d', hd', hwrite⟩ := generateTables_of_accepts (l := l) haccept
  rw [hpath] at hd'
  refine ⟨d', ?_, fun i u e hu he => ?_, ?_, fun p hp => ?_⟩
  · simp only [generateAll, hunits, hwrite, outputFiles, List.map_append, List.map_map]
    rfl
  · rw [hd'.get?, if_neg (hne u (List.mem_of_getElem? hu)).symm, hd₁.files hu he]
  · rw [hd'.get?, if_pos rfl]
  · have hmem : ∀ file ∈ outputFiles us, p ≠ d.pathOf file :=
      fun file hfile he => hp (he ▸ List.mem_map_of_mem hfile)
    rw [hd'.get?, if_neg (hmem _ htables), hd₁.others]
    exact fun u hu => hmem _ (List.mem_append_left _ (List.mem_map.mpr ⟨u, hu, rfl⟩))

/-- If a unit is the first without code, the units before it are written, its
own file is gone, and nothing else changes. -/
theorem generateAll_of_error {k : Nat} {u : CompilationUnit} {e : Emission Unit} {err : Error}
    (hu : us[k]? = some u) (he : (l.emissions 0 us)[k]? = some e) (hresult : e.result = .error err)
    (hok : ∀ e ∈ (l.emissions 0 us).take k, e.result = .ok ()) :
    ∃ d', generateAll o l us d =
        (d', .error (err.inFile (o.path (Symbol.unitFile u.qualifiedName)))) ∧
      (∀ (i : Nat) (v : CompilationUnit) (e : Emission Unit), i < k → us[i]? = some v →
        (l.emissions 0 us)[i]? = some e →
        d'.get? (d.pathOf (Symbol.unitFile v.qualifiedName)) = some (.file (e.lines.text o.comments))) ∧
      d'.get? (d.pathOf (Symbol.unitFile u.qualifiedName)) = none ∧
      ∀ p, p ∉ ((outputFiles us).take (k + 1)).map d.pathOf → d'.get? p = d.get? p := by
  obtain ⟨hlt, hget⟩ := List.getElem?_eq_some_iff.mp hu
  have hsplit : us = us.take k ++ u :: us.drop (k + 1) := by
    rw [← hget, List.getElem_cons_drop, List.take_append_drop]
  obtain rfl := Option.some.inj (he.symm.trans (Layout.getElem?_emissions hu))
  rw [Layout.take_emissions] at hok
  obtain ⟨d₁, hd₁, hunits⟩ :=
    generateUnits_of_isPrefix hnames hqualified haccepts (List.take_prefix k us) hok
  have hpath := Directory.pathOf_congr hd₁.base
  have hplain := isPlain_unitFile hqualified (List.mem_of_getElem? hu)
  have hne := pathOf_ne_of_mem_take (d := d) hnames hqualified hu
  have haccept : o.Accepts d₁ (Symbol.unitFile u.qualifiedName) := by
    refine (haccepts _ ?_).of_get? hplain hd₁.base (hd₁.others hne)
    exact List.mem_append_left _ (List.mem_map.mpr ⟨u, List.mem_of_getElem? hu, rfl⟩)
  obtain ⟨d', hd', hunit⟩ :=
    generateUnit_of_accepts (l := l) ⟨d₁, l.labelAfter 0 (us.take k)⟩ haccept
  rw [hresult] at hunit
  rw [Emission.entry, hresult, hpath] at hd'
  have hrest : generateUnits o l ⟨d₁, l.labelAfter 0 (us.take k)⟩ (u :: us.drop (k + 1)) =
      (⟨d', (u.emit l (l.labelAfter 0 (us.take k))).nextLabel⟩,
        .error (err.inFile (o.path (Symbol.unitFile u.qualifiedName)))) := by
    simp only [generateUnits, hunit]
  have hrun := generateUnits_append_of_error hrest hunits
  rw [← hsplit] at hrun
  refine ⟨d', ?_, fun i v e hi hv he => ?_, ?_, fun p hp => ?_⟩
  · simp only [generateAll, hrun]
  · have hv' : (us.take k)[i]? = some v := by rwa [List.getElem?_take_of_lt hi]
    have he' : (l.emissions 0 (us.take k))[i]? = some e := by
      rwa [← Layout.take_emissions, List.getElem?_take_of_lt hi]
    rw [hd'.get?, if_neg (hne v (List.mem_of_getElem? hv')).symm, hd₁.files hv' he']
  · rw [hd'.get?, if_pos rfl]
  · have hlast : us.take (k + 1) = us.take k ++ [u] := by
      rw [List.take_succ_eq_append_getElem hlt, hget]
    have hmem : ∀ v ∈ us.take k ++ [u], p ≠ d.pathOf (Symbol.unitFile v.qualifiedName) := by
      intro v hv he
      rw [take_outputFiles hlt, hlast, he] at hp
      exact hp (List.mem_map_of_mem (List.mem_map.mpr ⟨v, hv, rfl⟩))
    rw [List.forall_mem_append] at hmem
    rw [hd'.get?, if_neg (hmem.2 u (List.mem_singleton_self u)), hd₁.others hmem.1]

end

/-- What a run does to the output directory. If all units have code, every file
of the program is written, and nothing else changes. If one unit is the first
without code, the units before it are written, its own file is gone, and nothing
else changes. A program that is refused before changes nothing. -/
theorem generateAll_files (o : Options) (l : Layout) (us : List CompilationUnit) (d : Directory)
    (hnames : (us.map (·.qualifiedName)).Nodup)
    (hqualified : ∀ u ∈ us, Text.isQualified u.qualifiedName = true ∧ '/' ∉ u.qualifiedName.toList)
    (haccepts : ∀ file ∈ outputFiles us, o.Accepts d file) :
    ((outputFiles us).map d.pathOf).Nodup ∧
    ((∀ e ∈ l.emissions 0 us, e.result = .ok ()) →
      ∃ d', generateAll o l us d = (d', .ok ((outputFiles us).map o.path)) ∧
        ((outputFiles us).map o.path).Nodup ∧
        (∀ (i : Nat) (u : CompilationUnit) (e : Emission Unit), us[i]? = some u →
          (l.emissions 0 us)[i]? = some e →
          d'.get? (d.pathOf (Symbol.unitFile u.qualifiedName)) = some (.file (e.lines.text o.comments))) ∧
        d'.get? (d.pathOf Symbol.tablesFile) = some (.file (l.tablesListing.text o.comments)) ∧
        ∀ p, p ∉ (outputFiles us).map d.pathOf → d'.get? p = d.get? p) ∧
    (∀ (k : Nat) (u : CompilationUnit) (e : Emission Unit) (err : Error), us[k]? = some u →
      (l.emissions 0 us)[k]? = some e → e.result = .error err →
      (∀ e ∈ (l.emissions 0 us).take k, e.result = .ok ()) →
      ∃ d', generateAll o l us d =
          (d', .error (err.inFile (o.path (Symbol.unitFile u.qualifiedName)))) ∧
        (∀ (i : Nat) (v : CompilationUnit) (e : Emission Unit), i < k → us[i]? = some v →
          (l.emissions 0 us)[i]? = some e →
          d'.get? (d.pathOf (Symbol.unitFile v.qualifiedName)) = some (.file (e.lines.text o.comments))) ∧
        d'.get? (d.pathOf (Symbol.unitFile u.qualifiedName)) = none ∧
        ∀ p, p ∉ ((outputFiles us).take (k + 1)).map d.pathOf → d'.get? p = d.get? p) ∧
    (∀ given place err, check us o.allowUnresolved = .error err →
      compile o given us place = (place, .error err)) ∧
    ∀ place g err, check us o.allowUnresolved = .ok g → Layout.ofGraph g us = .error err →
      compile o none us place = (place, .error err) := by
  refine ⟨nodup_map_outputFiles hnames hqualified Directory.pathOf_inj, fun hok => ?_, ?_, ?_, ?_⟩
  · obtain ⟨d', hrun, hfiles⟩ := generateAll_of_ok hnames hqualified haccepts hok
    exact ⟨d', hrun, nodup_map_outputFiles hnames hqualified Options.path_inj, hfiles⟩
  · intro k u e err hu he hresult hok
    exact generateAll_of_error hnames hqualified haccepts hu he hresult hok
  · intro given place err hcheck
    simp only [compile, prepare, hcheck]
  · intro place g err hcheck hlayout
    simp only [compile, prepare, hcheck, Layout.choose, hlayout]

/-- A class between two interfaces. -/
def interruptedUnits : List CompilationUnit :=
  [(CompilationUnit.of (.ofInterface ⟨[], "A_b", [], [], .zero⟩)).withPackage "p",
    .of (.ofClass ⟨[], "B", none, [], [], .zero⟩), .of (.ofInterface ⟨[], "C", [], [], .zero⟩)]

/-- A directory with files of an earlier run. -/
def usedDirectory : Directory :=
  ⟨["out"], [(["out"], .directory), (["out", "B.s"], .file "old"), (["out", "C.s"], .file "old")]⟩

/-- A layout that lacks the class stops the run there. -/
theorem interruptedUnits_files :
    let o : Options := ⟨"out", false, true⟩
    let l : Layout := ⟨[], [], [], [], []⟩
    (∀ file ∈ outputFiles interruptedUnits, o.Accepts usedDirectory file) ∧
    ∃ d', generateAll o l interruptedUnits usedDirectory =
        (d', .error (.internal (.missingLayout "B"))) ∧
      d'.get? ["out", "p_A_0b.s"] =
        some (.file "; p.A_b\nsection .text\n; interface: no code\n") ∧
      d'.get? ["out", "B.s"] = none ∧ d'.get? ["out", "C.s"] = some (.file "old") := by
  intro o l
  have hqualified : ∀ u ∈ interruptedUnits,
      Text.isQualified u.qualifiedName = true ∧ '/' ∉ u.qualifiedName.toList := by decide
  have haccepts : ∀ file ∈ outputFiles interruptedUnits, o.Accepts usedDirectory file := by
    intro file hfile
    rw [Options.accepts_iff (isPlain_of_mem_outputFiles hqualified hfile)]
    revert file
    decide +kernel
  obtain ⟨-, -, hstop, -, -⟩ := generateAll_files o l interruptedUnits usedDirectory (by decide)
    hqualified haccepts
  obtain ⟨d', hrun, hfiles, hgone, hother⟩ :=
    hstop 1 _ _ (.internal (.missingLayout "B")) rfl rfl rfl (by decide +kernel)
  have hfirst := hfiles 0 _ _ (by decide) rfl rfl
  have hold : ["out", "C.s"] ∉
      ((outputFiles interruptedUnits).take 2).map usedDirectory.pathOf := by decide +kernel
  refine ⟨haccepts, d', hrun, ?_, ?_, (hother _ hold).trans rfl⟩
  · refine Eq.trans (congrArg d'.get? ?_) (hfirst.trans ?_)
    · decide +kernel
    · decide +kernel
  · refine Eq.trans (congrArg d'.get? ?_) hgone
    decide +kernel

end ClassCompiler
