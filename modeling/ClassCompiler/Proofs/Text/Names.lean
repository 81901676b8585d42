import ClassCompiler.Output.Path
import ClassCompiler.Text.Segments
import Mathlib.Data.List.Basic

/-!
# Simple and qualified names

A qualified name is a row of identifiers between dots. Of an identifier only
two things matter here: there is something to it, and it does not start with a
digit.

What the tests `isIdentifier` and `isQualified` accept is said again without
them: an at sign apart, which they let pass, a qualified name is what one gets
by joining identifiers with dots.

Key definitions: `isIdentifier`, `isQualified`, `Identifier`, `QualifiedName`.

Key theorems: `qualify_inj` (a qualified name is cut at its last dot),
`isQualified_qualify`, `isChain_of_isQualified` (no digit follows a dot),
`qualifiedName_iff`.
-/

namespace ClassCompiler

namespace Path

theorem exists_split (sep : Char) (cs : List Char) : ∃ part parts, split sep cs = part :: parts := by
  cases cs with
  | nil => exact ⟨[], [], rfl⟩
  | cons c cs =>
    rw [split]
    split
    · exact ⟨_, _, rfl⟩
    · split <;> exact ⟨_, _, rfl⟩

/-- A separator cuts a text into the parts before it and those after it. -/
theorem split_append_cons (sep : Char) (bs : List Char) : ∀ as : List Char,
    split sep (as ++ sep :: bs) = split sep as ++ split sep bs
  | [] => by simp [split]
  | a :: as => by
    have ih := split_append_cons sep bs as
    by_cases ha : a = sep
    · simp [split, ha, ih]
    · obtain ⟨part, parts, h⟩ := exists_split sep as
      simp [split, ha, ih, h]

theorem notMem_of_mem_split {sep : Char} : ∀ {cs part : List Char}, part ∈ split sep cs → sep ∉ part
  | [], part, h => by
    obtain rfl := List.mem_singleton.mp h
    exact List.not_mem_nil
  | c :: cs, part, h => by
    rw [split] at h
    split at h
    · rcases List.mem_cons.mp h with rfl | h
      · exact List.not_mem_nil
      · exact notMem_of_mem_split h
    · rename_i hc
      obtain ⟨first, rest, hs⟩ := exists_split sep cs
      rw [hs] at h
      rcases List.mem_cons.mp h with rfl | h
      · have hfirst : sep ∉ first := notMem_of_mem_split (hs ▸ List.mem_cons_self)
        exact List.not_mem_cons_of_ne_of_not_mem (Ne.symm hc) hfirst
      · exact notMem_of_mem_split (hs ▸ List.mem_cons_of_mem _ h)

/-- What is not a separator is in one of the parts. -/
theorem mem_intercalate_of_ne {sep c : Char} (h : c ≠ sep) : ∀ {parts : List (List Char)},
    c ∈ [sep].intercalate parts ↔ ∃ part ∈ parts, c ∈ part
  | [] => by simp
  | [part] => by simp
  | part :: next :: parts => by
    have ih : c ∈ [sep].intercalate (next :: parts) ↔ ∃ part ∈ next :: parts, c ∈ part :=
      mem_intercalate_of_ne h
    rw [List.intercalate_cons_cons, List.mem_append, List.mem_append, ih, List.mem_singleton]
    simp [h]

/-- The parts of a text with the separator between them are the text. -/
theorem intercalate_split (sep : Char) : ∀ cs : List Char, [sep].intercalate (split sep cs) = cs
  | [] => rfl
  | c :: cs => by
    have ih := intercalate_split sep cs
    obtain ⟨first, rest, hs⟩ := exists_split sep cs
    rw [hs] at ih
    by_cases hc : c = sep
    · simp [split, hc, hs, ih]
    · cases rest with
      | nil => simp_all [split]
      | cons => simp_all [split]

/-- Parts without the separator are what the text is split into. -/
theorem split_intercalate {sep : Char} : ∀ {parts : List (List Char)}, parts ≠ [] →
    (∀ part ∈ parts, sep ∉ part) → split sep ([sep].intercalate parts) = parts
  | [], h, _ => absurd rfl h
  | [part], _, h => by
    simpa using split_of_notMem (h part List.mem_cons_self)
  | part :: next :: parts, _, h => by
    obtain ⟨hpart, h⟩ := List.forall_mem_cons.mp h
    have ih := split_intercalate (List.cons_ne_nil next parts) h
    have hcut : [sep].intercalate (part :: next :: parts) =
        part ++ sep :: [sep].intercalate (next :: parts) := by simp
    rw [hcut, split_append_cons, ih, split_of_notMem hpart, List.singleton_append]

end Path

namespace Text

theorem isDotted_qualify {package : String} (h : package ≠ "") (name : String) :
    isDotted (qualify package name) = true := by
  simp [isDotted, qualify, h]

theorem lastSegment_qualify (package : String) {name : String} (h : isDotted name = false) :
    lastSegment (qualify package name) = name := by
  have hname : ∀ c ∈ name.toList.reverse, (c != '.') = true := by
    simp only [isDotted, List.contains_eq_mem, decide_eq_false_iff_not] at h
    intro c hc
    rw [bne_iff_ne]
    rintro rfl
    exact h (List.mem_reverse.mp hc)
  have htake : ∀ l, (name.toList.reverse ++ l).takeWhile (· != '.') =
      name.toList.reverse ++ l.takeWhile (· != '.') := fun l => List.takeWhile_append_of_pos hname
  rw [qualify]
  split
  · have := htake []
    simp only [List.append_nil, List.takeWhile_nil] at this
    rw [lastSegment, this, List.reverse_reverse, String.ofList_toList]
  · simp [lastSegment, htake]

theorem lastSegment_of_not_isDotted {name : String} (h : isDotted name = false) :
    lastSegment name = name :=
  lastSegment_qualify "" h

/-- A qualified name is cut at its last dot. -/
theorem qualify_inj {package package' name name' : String} (h : isDotted name = false)
    (h' : isDotted name' = false) (he : qualify package name = qualify package' name') :
    package = package' ∧ name = name' := by
  have hname : name = name' := by
    rw [← lastSegment_qualify package h, he, lastSegment_qualify package' h']
  subst hname
  refine ⟨?_, rfl⟩
  by_cases hp : package = "" <;> by_cases hp' : package' = ""
  · rw [hp, hp']
  · have := isDotted_qualify hp' name
    rw [← he, hp, qualify_empty, h] at this
    cases this
  · have := isDotted_qualify hp name
    rw [he, hp', qualify_empty, h] at this
    cases this
  · simpa [qualify, hp, hp'] using he

/-! ### Identifiers between dots -/

/-- A text that is not empty and does not start with a digit. -/
def isIdentifier (cs : List Char) : Bool :=
  cs.head?.any fun c => !c.isDigit

/-- A row of identifiers with dots between them. -/
def isQualified (name : String) : Bool :=
  (Path.split '.' name.toList).all isIdentifier

theorem ne_empty_of_isQualified {name : String} (h : isQualified name = true) : name ≠ "" := by
  rintro rfl
  simp [isQualified, Path.split, isIdentifier] at h

theorem isQualified_qualify {package name : String} (hp : package ≠ "") :
    isQualified (qualify package name) = (isQualified package && isQualified name) := by
  have hcut : (qualify package name).toList = package.toList ++ '.' :: name.toList := by
    simp [qualify, hp]
  rw [isQualified, hcut, Path.split_append_cons, List.all_append]
  rfl

/-- Every identifier but the first follows a dot, so no digit does. -/
theorem isChain_of_split : ∀ {cs : List Char}, (Path.split '.' cs).tail.all isIdentifier = true →
    cs.IsChain fun a b => a = '.' → b.isDigit = false
  | [], _ => .nil
  | [c], _ => .singleton c
  | c :: d :: rest, h => by
    obtain ⟨part, parts, hs⟩ := Path.exists_split '.' (d :: rest)
    have hparts : parts.all isIdentifier = true := by
      by_cases hc : c = '.' <;> simp_all [Path.split]
    have ih : (d :: rest).IsChain fun a b => a = '.' → b.isDigit = false :=
      isChain_of_split (by rw [hs]; exact hparts)
    refine .cons_cons ?_ ih
    rintro rfl
    have hpart : isIdentifier part = true := by simp_all [Path.split]
    -- the part starts with what follows the dot, unless that is a dot as well
    rw [Path.split] at hs
    split at hs
    · obtain ⟨rfl, -⟩ := List.cons.inj hs
      cases hpart
    · split at hs <;> obtain ⟨rfl, -⟩ := List.cons.inj hs <;> simpa [isIdentifier] using hpart

theorem isChain_of_isQualified {name : String} (h : isQualified name = true) :
    name.toList.IsChain fun a b => a = '.' → b.isDigit = false := by
  refine isChain_of_split ?_
  obtain ⟨part, parts, hs⟩ := Path.exists_split '.' name.toList
  rw [isQualified, hs, List.all_cons, Bool.and_eq_true] at h
  rw [hs]
  exact h.2

/-- The first character of a qualified name. -/
theorem head_of_isQualified {name : String} (h : isQualified name = true) :
    ∃ c rest, name.toList = c :: rest ∧ c ≠ '.' := by
  cases hn : name.toList with
  | nil => exact absurd (String.toList_eq_nil_iff.mp hn) (ne_empty_of_isQualified h)
  | cons c rest =>
    refine ⟨c, rest, rfl, ?_⟩
    rintro rfl
    simp [isQualified, hn, Path.split, isIdentifier] at h

/-! ### Names as rows of identifiers -/

/-- A text that can stand between dots: it is not empty, has no dot and no at
sign, and does not start with a digit. -/
structure Identifier (s : String) : Prop where
  nonempty : s ≠ ""
  noDot : '.' ∉ s.toList
  noAt : '@' ∉ s.toList
  noDigit : ∀ c ∈ s.toList.head?, c.isDigit = false

/-- One or more identifiers, joined by dots. -/
def QualifiedName (name : String) : Prop :=
  ∃ parts : List String, parts ≠ [] ∧ (∀ part ∈ parts, Identifier part) ∧ name = ".".intercalate parts

theorem identifier_iff {s : String} :
    Identifier s ↔ isIdentifier s.toList = true ∧ '.' ∉ s.toList ∧ '@' ∉ s.toList := by
  have hstart : isIdentifier s.toList = true ↔ s ≠ "" ∧ ∀ c ∈ s.toList.head?, c.isDigit = false := by
    rw [isIdentifier, ne_eq, ← String.toList_eq_nil_iff]
    cases s.toList <;> simp
  rw [hstart]
  exact ⟨fun h => ⟨⟨h.nonempty, h.noDigit⟩, h.noDot, h.noAt⟩, fun h => ⟨h.1.1, h.2.1, h.2.2, h.1.2⟩⟩

instance (s : String) : Decidable (Identifier s) := decidable_of_iff _ identifier_iff.symm

/-- The qualified names are the rows of identifiers that have no at sign. -/
theorem qualifiedName_iff {name : String} :
    QualifiedName name ↔ isQualified name = true ∧ '@' ∉ name.toList := by
  have hdot : ".".toList = ['.'] := rfl
  constructor
  · rintro ⟨parts, hne, hparts, rfl⟩
    have hsplit : Path.split '.' (".".intercalate parts).toList = parts.map String.toList := by
      rw [String.toList_intercalate, hdot]
      refine Path.split_intercalate (by simpa using hne) (List.forall_mem_map.mpr ?_)
      exact fun part hp => (hparts part hp).noDot
    constructor
    · rw [isQualified, hsplit, List.all_map, List.all_eq_true]
      exact fun part hp => (identifier_iff.mp (hparts part hp)).1
    · rw [String.toList_intercalate, hdot, Path.mem_intercalate_of_ne (by decide)]
      rintro ⟨part, hp, hat⟩
      obtain ⟨s, hs, rfl⟩ := List.mem_map.mp hp
      exact (hparts s hs).noAt hat
  · rintro ⟨hq, hat⟩
    refine ⟨(Path.split '.' name.toList).map String.ofList, ?_, ?_, ?_⟩
    · obtain ⟨part, parts, hs⟩ := Path.exists_split '.' name.toList
      simp [hs]
    · rw [List.forall_mem_map]
      intro part hp
      rw [identifier_iff, String.toList_ofList]
      refine ⟨List.all_eq_true.mp hq part hp, Path.notMem_of_mem_split hp, fun hmem => hat ?_⟩
      rw [← Path.intercalate_split '.' name.toList, Path.mem_intercalate_of_ne (by decide)]
      exact ⟨part, hp, hmem⟩
    · rw [← String.toList_inj, String.toList_intercalate, hdot, List.map_map]
      simp [Function.comp_def, Path.intercalate_split]

instance (name : String) : Decidable (QualifiedName name) := decidable_of_iff _ qualifiedName_iff.symm

theorem QualifiedName.isQualified {name : String} (h : QualifiedName name) : isQualified name = true :=
  (qualifiedName_iff.mp h).1

theorem Identifier.isQualified {s : String} (h : Identifier s) : isQualified s = true := by
  rw [Text.isQualified, Path.split_of_notMem h.noDot, List.all_cons, (identifier_iff.mp h).1]
  rfl

end Text
end ClassCompiler
