import ClassCompiler.Command.Run
import ClassCompiler.Proofs.Json.Text
import ClassCompiler.Proofs.Source.Readers

/-!
# What is written is read back

A unit is read back from its JSON value and from every other form of it, and a
layout from its JSON value. A file holds one unit or a list of units, and one
unit is tried first, which could take a list of units for a unit in list form.
It never does. The second value of the list would have to be a list of imports,
and no form of a unit is one: an object is no list, and the list form of a unit
has its own list of imports in second place, which is no import
(`CompilationUnit.imports_of_writtenAs`).

All of this holds at every depth. The text of a file, though, is read only if
lists and objects nest at most `fileNesting` deep in it, so there are units
whose own text is refused (`deepUnit`), and only if every part of it can be read.
The JSON value of a unit can be read throughout. Another form of it may hold a
member that is no field and cannot be read, and then its text is refused as well
(`spoiltForm`).

Key theorems: `Layout.ofJson?_toJson`, `CompilationUnit.ofJson?_of_list`,
`CompilationUnit.fileOfJson?_of_list`, `unitsOfText?_eq`, `json_round_trip`.
-/

namespace ClassCompiler

/-! ### Layouts -/

namespace Json

theorem list?_ofList {α : Type} {read : Json → Option α} {write : α → Json}
    (h : ∀ a, read (write a) = some a) (as : List α) :
    Json.list? read (.ofList write as) = some as := by
  show (as.map write).mapM read = some as
  induction as with
  | nil => rfl
  | cons a as ih => simp [h a, ih]

theorem nat?_ofNat (n : Nat) : Json.nat? (.ofNat n) = some n := by
  simp [Json.nat?, Json.ofNat]

theorem option?_str (o : Option String) :
    Json.option? Json.str? (.ofOption .str o) = some o := by
  cases o <;> rfl

/-- An object whose members are the fields of a record is that record. -/
theorem record?_obj {members : List (String × Json)} (names : List String)
    (hnames : members.map Prod.fst = names) (hnodup : names.Nodup) :
    (Json.obj members).record? names = some ⟨(members.lookup ·)⟩ := by
  subst hnames
  exact if_pos (hnodup.filter _)

end Json

theorem ParameterType.ofJson?_toJson (p : ParameterType) : ofJson? p.toJson = some p := by
  have hr : p.toJson.record? ["type_name", "is_array"] = some ⟨_⟩ :=
    Json.record?_obj _ rfl (by decide)
  rw [ofJson?, hr]
  rfl

theorem Signature.ofJson?_toJson (s : Signature) : ofJson? s.toJson = some s := by
  have hr : s.toJson.record? ["name", "parameters"] = some ⟨_⟩ :=
    Json.record?_obj _ rfl (by decide)
  rw [ofJson?, hr]
  show (do
    let ps ← Json.list? ParameterType.ofJson? (.ofList ParameterType.toJson s.parameters)
    return ⟨s.name, ps⟩ : Option Signature) = some s
  rw [Json.list?_ofList ParameterType.ofJson?_toJson]
  rfl

theorem VtableEntry.ofJson?_toJson (e : VtableEntry) : ofJson? e.toJson = some e := by
  have hr : e.toJson.record? ["signature", "owner", "label", "is_abstract"] = some ⟨_⟩ :=
    Json.record?_obj _ rfl (by decide)
  rw [ofJson?, hr]
  show (do
    let signature ← Signature.ofJson? e.signature.toJson
    return ⟨signature, e.owner, e.label, e.isAbstract⟩ : Option VtableEntry) = some e
  rw [Signature.ofJson?_toJson]
  rfl

theorem ClassLayout.ofJson?_toJson (c : ClassLayout) : ofJson? c.toJson = some c := by
  have hr : c.toJson.record? ["name", "class_id", "type_id", "vtable"] = some ⟨_⟩ :=
    Json.record?_obj _ rfl (by decide)
  rw [ofJson?, hr]
  show (do
    let classId ← Json.nat? (.ofNat c.classId)
    let typeId ← Json.nat? (.ofNat c.typeId)
    let vtable ← Json.list? VtableEntry.ofJson? (.ofList VtableEntry.toJson c.vtable)
    return ⟨c.name, classId, typeId, vtable⟩ : Option ClassLayout) = some c
  rw [Json.nat?_ofNat, Json.nat?_ofNat, Json.list?_ofList VtableEntry.ofJson?_toJson]
  rfl

theorem InterfaceSlot.ofJson?_toJson (s : InterfaceSlot) : ofJson? s.toJson = some s := by
  have hr : s.toJson.record? ["signature", "declared_by"] = some ⟨_⟩ :=
    Json.record?_obj _ rfl (by decide)
  rw [ofJson?, hr]
  show (do
    let signature ← Signature.ofJson? s.signature.toJson
    let declaredBy ← Json.list? Json.nat? (.ofList Json.ofNat s.declaredBy)
    return ⟨signature, declaredBy⟩ : Option InterfaceSlot) = some s
  rw [Signature.ofJson?_toJson, Json.list?_ofList Json.nat?_ofNat]
  rfl

/-- A layout is read back from its JSON value. -/
theorem Layout.ofJson?_toJson (l : Layout) : ofJson? l.toJson = some l := by
  have hr : l.toJson.record? ["types", "classes", "interface_slots", "subtypes", "selector"]
      = some ⟨_⟩ := Json.record?_obj _ rfl (by decide)
  have hstr (s : String) : Json.str? (.str s) = some s := rfl
  have hbool (b : Bool) : Json.bool? (.bool b) = some b := rfl
  rw [ofJson?, hr]
  show (do
    let types ← Json.list? Json.str? (.ofList .str l.types)
    let classes ← Json.list? ClassLayout.ofJson? (.ofList ClassLayout.toJson l.classes)
    let slots ← Json.list? InterfaceSlot.ofJson? (.ofList InterfaceSlot.toJson l.interfaceSlots)
    let subtypes ← Json.list? (Json.list? Json.bool?) (.ofList (Json.ofList .bool) l.subtypes)
    let selector ← Json.list? (Json.list? (Json.option? Json.str?))
      (.ofList (Json.ofList (Json.ofOption .str)) l.selector)
    return ⟨types, classes, slots, subtypes, selector⟩ : Option Layout) = some l
  rw [Json.list?_ofList hstr, Json.list?_ofList ClassLayout.ofJson?_toJson,
    Json.list?_ofList InterfaceSlot.ofJson?_toJson, Json.list?_ofList (Json.list?_ofList hbool),
    Json.list?_ofList (Json.list?_ofList Json.option?_str)]
  rfl

/-! ### Files -/

/-- No form of a list of imports is an import: its first value is no name. -/
theorem ImportDecl.ofJson?_of_list {is : List ImportDecl} {j : Json}
    (h : (Shape.ofList ImportDecl.shape is).WrittenAs j) : ImportDecl.ofJson? j = none := by
  cases h with
  | @list _ js h =>
    cases js with
    | nil => rfl
    | cons i js =>
      have hi : i.str? = none := by
        cases is with
        | nil => cases h
        | cons d is =>
          cases h with
          | cons h _ => cases h <;> rfl
      simp [ImportDecl.ofJson?, Json.record?, Record.get?, List.lookup_cons, hi]

namespace CompilationUnit

variable {u : CompilationUnit} {us : List CompilationUnit} {j : Json}

/-- No form of a unit is a list of imports. -/
theorem imports_of_writtenAs (h : u.shape.WrittenAs j) : j.list? ImportDecl.ofJson? = none := by
  cases h with
  | object => rfl
  | @listed _ _ given rest js split written default =>
    -- The declaration has no default, so it is among the values, after the imports.
    have hdecl : u.decl.shape ∉ rest := fun hm => u.decl.not_isDefault (default _ hm)
    rcases given with _ | ⟨a, _ | ⟨b, _ | ⟨c, given⟩⟩⟩
    · obtain rfl : _ = rest := split
      exact absurd (by simp) hdecl
    · obtain ⟨-, rfl⟩ := List.cons.inj split
      exact absurd (by simp) hdecl
    · obtain ⟨-, split⟩ := List.cons.inj split
      obtain ⟨-, rfl⟩ := List.cons.inj split
      exact absurd (by simp) hdecl
    · obtain ⟨-, split⟩ := List.cons.inj split
      obtain ⟨rfl, -⟩ := List.cons.inj split
      rcases written with _ | ⟨-, _ | ⟨himports, -⟩⟩
      have hnone := ImportDecl.ofJson?_of_list himports
      simp [Json.list?, hnone]

/-- No form of a list of units is a form of a unit. -/
theorem ofJson?_of_list (h : (Shape.ofList CompilationUnit.shape us).WrittenAs j) :
    CompilationUnit.ofJson? j = none := by
  cases h with
  | @list _ js h =>
    rcases js with _ | ⟨i, _ | ⟨k, js⟩⟩
    · rfl
    · simp [CompilationUnit.ofJson?, Json.record?, Record.get?, List.lookup_cons]
    · have hk : k.list? ImportDecl.ofJson? = none := by
        rcases us with _ | ⟨u, _ | ⟨v, us⟩⟩
        · cases h
        · cases h with
          | cons _ h => cases h
        · cases h with
          | cons _ h =>
          cases h with
          | cons h _ => exact imports_of_writtenAs h
      simp [CompilationUnit.ofJson?, Json.record?, Record.getD?, List.lookup_cons, hk]

theorem fileOfJson?_of_writtenAs (h : u.shape.WrittenAs j) :
    CompilationUnit.fileOfJson? j = some [u] := by
  rw [CompilationUnit.fileOfJson?, CompilationUnit.reads u j h]

/-- A list of units, each in any form, is read as that list. -/
theorem fileOfJson?_of_list (h : (Shape.ofList CompilationUnit.shape us).WrittenAs j) :
    CompilationUnit.fileOfJson? j = some us := by
  rw [CompilationUnit.fileOfJson?, ofJson?_of_list h]
  exact (CompilationUnit.reads.below (j.depth + 1)).list us j h (Nat.lt_succ_self _)

theorem writtenAs_toJson (u : CompilationUnit) : u.shape.WrittenAs u.toJson :=
  u.shape.writtenAs_toJson

theorem toJson_list (us : List CompilationUnit) :
    (Shape.ofList CompilationUnit.shape us).toJson = .arr (us.map CompilationUnit.toJson) := by
  rw [Shape.ofList, Shape.toJson, Shape.toJsonItems_eq, List.map_map]
  rfl

theorem writtenAs_toJson_list (us : List CompilationUnit) :
    (Shape.ofList CompilationUnit.shape us).WrittenAs (.arr (us.map CompilationUnit.toJson)) :=
  toJson_list us ▸ Shape.writtenAs_toJson _

end CompilationUnit

/-! ### Texts of files -/

namespace Shape

mutual

/-- The JSON value of a shape can be read throughout. -/
theorem isReadable_toJson : ∀ s : Shape, s.toJson.isReadable = true
  | .flag _ | .number _ | .text _ | .char _ | .absent | .tag _ => rfl
  | .present s => isReadable_toJson s
  | .list items => areReadable_toJsonItems items
  | .record _ fields => areReadableMembers_toJsonFields fields
  | .variant _ payload => by
    simp [toJson, Json.isReadable, Json.areReadableMembers, isReadable_toJson payload]

theorem areReadable_toJsonItems : ∀ items : List Shape, Json.areReadable (toJsonItems items) = true
  | [] => rfl
  | s :: ss => by
    simp [toJsonItems, Json.areReadable, isReadable_toJson s, areReadable_toJsonItems ss]

theorem areReadableMembers_toJsonFields : ∀ fields : List (String × Shape),
    Json.areReadableMembers (toJsonFields fields) = true
  | [] => rfl
  | (_, s) :: fields => by
    simp [toJsonFields, Json.areReadableMembers, isReadable_toJson s,
      areReadableMembers_toJsonFields fields]

end

end Shape

/-- The units of a text are those of the value it writes, if that can be read
throughout and nests no deeper than a file may. -/
theorem unitsOfText?_eq {text : String} {j : Json} (hparse : Json.parse? text = some j) :
    unitsOfText? text = if j.isReadable = true ∧ j.depth ≤ fileNesting
      then CompilationUnit.fileOfJson? j else none := by
  unfold unitsOfText? Json.parseReadable?
  rw [hparse]
  by_cases hread : j.isReadable = true
  · by_cases hdepth : j.depth ≤ fileNesting
    · simp [Option.filter, hread, hdepth]
    · simp [Option.filter, hdepth]
  · simp [Option.filter, hread]

theorem unitsOfText?_of_isReadable {text : String} {j : Json} (hparse : Json.parse? text = some j)
    (hread : j.isReadable = true) :
    unitsOfText? text = if j.depth ≤ fileNesting then CompilationUnit.fileOfJson? j else none := by
  rw [unitsOfText?_eq hparse]
  simp only [hread, true_and]

/-- **Round trip.** A unit is read back from its JSON value and from every other
form of it, alone and as the content of a file. A layout is read back from its
JSON value. A list of units, each in any form, is never taken for one unit and
is read back as that list. A text that writes the JSON value of a unit, or the
list of the JSON values of units, loads as exactly these if it nests at most
`fileNesting` deep, and is refused otherwise. A text that writes any other form
of a unit or of a list of units loads as exactly these if in addition every part
of it can be read, and is refused otherwise. -/
theorem json_round_trip :
    (∀ u : CompilationUnit, u.shape.WrittenAs u.toJson ∧ ∀ j, u.shape.WrittenAs j →
      CompilationUnit.ofJson? j = some u ∧ CompilationUnit.fileOfJson? j = some [u]) ∧
    (∀ l : Layout, Layout.ofJson? l.toJson = some l) ∧
    (∀ us : List CompilationUnit,
      (Shape.ofList CompilationUnit.shape us).WrittenAs (.arr (us.map CompilationUnit.toJson)) ∧
      ∀ j, (Shape.ofList CompilationUnit.shape us).WrittenAs j →
        CompilationUnit.ofJson? j = none ∧ CompilationUnit.fileOfJson? j = some us) ∧
    (∀ (text : String) (u : CompilationUnit), Json.parse? text = some u.toJson →
      unitsOfText? text = if u.toJson.depth ≤ fileNesting then some [u] else none) ∧
    (∀ (text : String) (us : List CompilationUnit),
      Json.parse? text = some (.arr (us.map CompilationUnit.toJson)) →
      unitsOfText? text = if (Json.arr (us.map CompilationUnit.toJson)).depth ≤ fileNesting
        then some us else none) ∧
    ∀ (text : String) (j : Json), Json.parse? text = some j →
      (∀ u : CompilationUnit, u.shape.WrittenAs j → unitsOfText? text =
        if j.isReadable = true ∧ j.depth ≤ fileNesting then some [u] else none) ∧
      ∀ us : List CompilationUnit, (Shape.ofList CompilationUnit.shape us).WrittenAs j →
        unitsOfText? text =
          if j.isReadable = true ∧ j.depth ≤ fileNesting then some us else none := by
  refine ⟨fun u => ⟨u.writtenAs_toJson, fun j h => ?_⟩, Layout.ofJson?_toJson,
    fun us => ⟨CompilationUnit.writtenAs_toJson_list us, fun j h => ?_⟩, fun text u hparse => ?_,
    fun text us hparse => ?_, fun text j hparse => ⟨fun u h => ?_, fun us h => ?_⟩⟩
  · exact ⟨CompilationUnit.reads u j h, CompilationUnit.fileOfJson?_of_writtenAs h⟩
  · exact ⟨CompilationUnit.ofJson?_of_list h, CompilationUnit.fileOfJson?_of_list h⟩
  · rw [unitsOfText?_of_isReadable hparse u.shape.isReadable_toJson,
      CompilationUnit.fileOfJson?_of_writtenAs u.writtenAs_toJson]
  · have hwritten := CompilationUnit.writtenAs_toJson_list us
    have hread := Shape.isReadable_toJson (Shape.ofList CompilationUnit.shape us)
    rw [CompilationUnit.toJson_list] at hread
    rw [unitsOfText?_of_isReadable hparse hread, CompilationUnit.fileOfJson?_of_list hwritten]
  · rw [unitsOfText?_eq hparse, CompilationUnit.fileOfJson?_of_writtenAs h]
  · rw [unitsOfText?_eq hparse, CompilationUnit.fileOfJson?_of_list h]

/-- A public class with a superclass, in a package. -/
def shortUnit : CompilationUnit where
  package := some ⟨"p", .zero⟩
  imports := []
  decl := .ofClass {
    modifiers := [.isPublic], name := "A", superclass := some (.named "B"), interfaces := []
    members := [], span := .zero }
  span := .zero

/-- The declaration of `shortUnit` as a list that ends before its defaults. -/
def shortClass : Json :=
  .obj [("Class", .arr [.arr [.obj [("Public", .null)]], .str "A",
    .obj [("is_array", .bool false), ("name", .str "B")]])]

/-- `shortUnit` in a form that leaves out what it can and holds a member that is
no field. -/
def shortForm (note : Json) : Json :=
  .obj [("note", note), ("type_decl", shortClass), ("package_decl", .arr [.str "p"])]

/-- A form of `shortUnit` with a number that is too large to be read. -/
def spoiltForm : Json := shortForm (.unreadable "1e999")

theorem shortUnit_writtenAs_shortForm (note : Json) : shortUnit.shape.WrittenAs (shortForm note) := by
  have hzero : Span.zero.shape.IsDefault := Span.isDefault_iff.mpr rfl
  have hpackage : (PackageDecl.shape ⟨"p", .zero⟩).WrittenAs (.arr [.str "p"]) :=
    .listed _ (rfl : _ = [_] ++ [_]) (.cons (.text _) .nil) (by simp [hzero])
  have hsuperclass : (TypeRef.named "B").shape.WrittenAs
      (.obj [("is_array", .bool false), ("name", .str "B")]) :=
    .object _ (.given _ (.text _) (.given _ (.flag _) (.dropped _ hzero .nil)))
      (List.forall_mem_nil _) (.swap _ _ _)
  have hrest : ∀ s ∈ [Shape.list [], .list [], Span.zero.shape], s.IsDefault := by
    simp only [List.forall_mem_cons]
    exact ⟨rfl, rfl, hzero, List.forall_mem_nil _⟩
  have hclass : shortUnit.decl.shape.WrittenAs shortClass :=
    .variant _ (.listed _ (rfl : _ = [_, _, _] ++ [_, _, _])
      (.cons (.list (.cons (.taggedNull _) .nil)) (.cons (.text _)
        (.cons (.present hsuperclass) .nil))) hrest)
  have horder := List.reverse_perm ([("package_decl", Json.arr [.str "p"]),
    ("type_decl", shortClass)] ++ [("note", note)])
  exact .object _ (.given _ (.present hpackage)
    (.dropped _ rfl (.given _ hclass (.dropped _ hzero .nil)))) (by simp) horder

/-- The text of a form of `shortUnit` loads, and that of the spoilt form is
refused, although its value is read. -/
theorem shortForm_round_trip :
    CompilationUnit.ofJson? (shortForm (.decimal "1.5")) = some shortUnit ∧
      CompilationUnit.fileOfJson? (.arr [shortForm (.decimal "1.5"), shortUnit.toJson])
        = some [shortUnit, shortUnit] ∧
      unitsOfText? shortUnit.toJson.compact = some [shortUnit] ∧
      unitsOfText? (shortForm (.int 15)).compact = some [shortUnit] ∧
      CompilationUnit.ofJson? spoiltForm = some shortUnit ∧
      unitsOfText? spoiltForm.compact = none := by
  obtain ⟨hunit, -, hlist, htext, -, hforms⟩ := json_round_trip
  have hwritten := shortUnit_writtenAs_shortForm
  refine ⟨((hunit shortUnit).2 _ (hwritten _)).1, ((hlist [shortUnit, shortUnit]).2 _ ?_).2, ?_, ?_,
    ((hunit shortUnit).2 _ (hwritten _)).1, ?_⟩
  · exact .list (.cons (hwritten _) (.cons shortUnit.writtenAs_toJson .nil))
  · have hparse := Json.parse?_compact (j := shortUnit.toJson) (by decide +kernel)
    have hdepth : shortUnit.toJson.depth ≤ fileNesting := by decide +kernel
    rw [htext _ _ hparse, if_pos hdepth]
  · have hparse := Json.parse?_compact (j := shortForm (.int 15)) (by decide +kernel)
    rw [(hforms _ _ hparse).1 _ (hwritten _), if_pos (by decide +kernel)]
  · exact Option.isNone_iff_eq_none.mp (by decide +kernel)

/-- Blocks inside each other, `n` of them around the innermost. -/
def nestedBlocks : Nat → Stmt
  | 0 => .block [] .zero
  | n + 1 => .block [nestedBlocks n] .zero

/-- A class whose constructor nests forty blocks below its body. -/
def deepUnit : CompilationUnit where
  package := none
  imports := []
  decl := .ofClass {
    modifiers := [], name := "A", superclass := none, interfaces := []
    members := [.ctor {
      modifiers := [], name := "A", parameters := [], body := ⟨[nestedBlocks 39], .zero⟩
      span := .zero }]
    span := .zero }
  span := .zero

/-- The text of `deepUnit` writes its JSON value, which nests too deep for a
file. -/
theorem deepUnit_not_loaded :
    Json.parse? deepUnit.toJson.compact = some deepUnit.toJson ∧
      unitsOfText? deepUnit.toJson.compact = none := by
  have hparse := Json.parse?_compact (j := deepUnit.toJson) (by decide +kernel)
  have hdepth : ¬ deepUnit.toJson.depth ≤ fileNesting := by decide +kernel
  exact ⟨hparse, by rw [unitsOfText?_of_isReadable hparse deepUnit.shape.isReadable_toJson, if_neg hdepth]⟩

end ClassCompiler
