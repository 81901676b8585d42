import ClassCompiler.Source.Decode
import ClassCompiler.Source.Shape
import Mathlib.Data.List.Forall2

/-!
# The JSON forms of a shape

A shape has one JSON value of its own, `Shape.toJson`, and more that stand for
the same thing. A field that holds its default may be left out, an object may
hold members that no field is named after, in any order, and a record may be
the list of its fields instead, where defaults at the end may be missing.
`Shape.WrittenAs` is the relation of a shape to all of its forms; it knows
nothing of the readers.

The fields with a default are those that hold a flag, an option, a list or a
span; this is so in every record, so `Shape.IsDefault` looks at the shape alone.

What a reader of a record needs is the same for both forms of the record:
every field is found and well written, or it is not found and holds its
default (`Record.Holds`). A reader is then put together from the readers of
the fields. Readers of nested values count down a depth, so what they read is
stated for values up to a depth (`ReadsBelow`).

Key definitions: `Shape.IsDefault`, `Shape.WrittenAs`, `Record.Holds`, `ReadsBelow`, `Reads`.
Key theorems: `Shape.writtenAs_toJson`, `Shape.WrittenAs.exists_record`,
`Record.Holds.get?_eq`, `Record.Holds.getD?_eq`, `ReadsBelow.list`, `ReadsBelow.option`.
-/

namespace ClassCompiler
namespace Shape

/-- Whether a shape is the default of a field: false, absent, the empty list or
the span of zeros. -/
def IsDefault : Shape → Prop
  | .flag b => b = false
  | .absent => True
  | .list items => items = []
  | .record name fields => Shape.record name fields = Span.zero.shape
  | _ => False

/-- Members that write the fields of a record in order, where `R` tells how a
shape is written. A default may be left out. -/
inductive MembersWrite (R : Shape → Json → Prop) :
    List (String × Shape) → List (String × Json) → Prop
  | nil : MembersWrite R [] []
  | given {fields members} (name) {s j} (written : R s j) (rest : MembersWrite R fields members) :
      MembersWrite R ((name, s) :: fields) ((name, j) :: members)
  | dropped {fields members} (name) {s} (default : s.IsDefault)
      (rest : MembersWrite R fields members) : MembersWrite R ((name, s) :: fields) members

/-- The JSON values that write a shape. -/
inductive WrittenAs : Shape → Json → Prop
  | flag (b) : WrittenAs (.flag b) (.bool b)
  | number (n) : WrittenAs (.number n) (.int n)
  | text (s) : WrittenAs (.text s) (.str s)
  | char (c) : WrittenAs (.char c) (.str (String.ofList [c]))
  | absent : WrittenAs .absent .null
  | present {s j} (written : WrittenAs s j) : WrittenAs (.present s) j
  | list {items js} (written : List.Forall₂ WrittenAs items js) : WrittenAs (.list items) (.arr js)
  | object (name) {fields own foreign members} (written : MembersWrite WrittenAs fields own)
      (unknown : ∀ m ∈ foreign, m.1 ∉ fields.map Prod.fst)
      (order : members.Perm (own ++ foreign)) : WrittenAs (.record name fields) (.obj members)
  | listed (name) {fields given rest js} (split : fields.map Prod.snd = given ++ rest)
      (written : List.Forall₂ WrittenAs given js) (default : ∀ s ∈ rest, s.IsDefault) :
      WrittenAs (.record name fields) (.arr js)
  | tag (name) : WrittenAs (.tag name) (.str name)
  | taggedNull (name) : WrittenAs (.tag name) (.obj [(name, .null)])
  | variant (name) {payload j} (written : WrittenAs payload j) :
      WrittenAs (.variant name payload) (.obj [(name, j)])

mutual

/-- The JSON value of a shape is one of its forms. -/
theorem writtenAs_toJson : ∀ s : Shape, s.WrittenAs s.toJson
  | .flag b => .flag b
  | .number n => .number n
  | .text s => .text s
  | .char c => .char c
  | .absent => .absent
  | .present s => .present (writtenAs_toJson s)
  | .list items => .list (writtenAs_toJsonItems items)
  | .record name fields =>
    .object name (membersWrite_toJsonFields fields) (List.forall_mem_nil _)
      (.of_eq (List.append_nil _).symm)
  | .tag name => .tag name
  | .variant name payload => .variant name (writtenAs_toJson payload)

theorem writtenAs_toJsonItems : ∀ items : List Shape,
    List.Forall₂ WrittenAs items (toJsonItems items)
  | [] => .nil
  | s :: ss => .cons (writtenAs_toJson s) (writtenAs_toJsonItems ss)

theorem membersWrite_toJsonFields : ∀ fields : List (String × Shape),
    MembersWrite WrittenAs fields (toJsonFields fields)
  | [] => .nil
  | (name, s) :: fields => .given name (writtenAs_toJson s) (membersWrite_toJsonFields fields)

end

end Shape

/-! ### Depth -/

namespace Json

theorem depth_lt_arr : ∀ {js : List Json} {j : Json}, j ∈ js → j.depth < (Json.arr js).depth
  | i :: js, j, h => by
    simp only [depth, depthItems]
    cases h with
    | head => omega
    | tail _ h =>
      have := depth_lt_arr h
      simp only [depth] at this
      omega

theorem depth_lt_obj : ∀ {members : List (String × Json)} {key : String} {j : Json},
    (key, j) ∈ members → j.depth < (Json.obj members).depth
  | (k, i) :: members, key, j, h => by
    simp only [depth, depthMembers]
    cases h with
    | head => omega
    | tail _ h =>
      have := depth_lt_obj h
      simp only [depth] at this
      omega

end Json

/-! ### Records -/

/-- A record holds a field of a given shape: it writes the shape, in a value
that nests less than `n` deep, or it is left out and the shape is a default. -/
def Record.Holds (r : Record) (n : Nat) (field : String × Shape) : Prop :=
  (∃ j, r.find? field.1 = some j ∧ field.2.WrittenAs j ∧ j.depth < n) ∨
    (r.find? field.1 = none ∧ field.2.IsDefault)

theorem Record.Holds.mono {r : Record} {m n : Nat} {field : String × Shape} (h : r.Holds m field)
    (hmn : m ≤ n) : r.Holds n field :=
  h.imp_left fun ⟨j, hfind, hw, hm⟩ => ⟨j, hfind, hw, Nat.lt_of_lt_of_le hm hmn⟩

namespace Shape

variable {R : Shape → Json → Prop} {fields : List (String × Shape)} {members : List (String × Json)}

theorem MembersWrite.sublist (h : MembersWrite R fields members) :
    (members.map Prod.fst).Sublist (fields.map Prod.fst) := by
  induction h with
  | nil => exact .slnil
  | given name _ _ ih => exact ih.cons_cons name
  | dropped name _ _ ih => exact ih.cons name

/-- Each field is written by a member, or it is a default and no member has its
name. -/
theorem MembersWrite.field (h : MembersWrite R fields members)
    (hnames : (fields.map Prod.fst).Nodup) : ∀ p ∈ fields,
    (∃ j, (p.1, j) ∈ members ∧ R p.2 j) ∨ (p.2.IsDefault ∧ p.1 ∉ members.map Prod.fst) := by
  induction h with
  | nil => simp
  | @given fields members name s j written _ ih =>
    rw [List.map_cons, List.nodup_cons] at hnames
    intro p hp
    rcases List.mem_cons.mp hp with rfl | hp
    · exact .inl ⟨j, List.mem_cons_self, written⟩
    · rcases ih hnames.2 p hp with ⟨i, hi, hw⟩ | ⟨hd, hno⟩
      · exact .inl ⟨i, List.mem_cons_of_mem _ hi, hw⟩
      · have hne : p.1 ≠ name := fun he => hnames.1 (List.mem_map.mpr ⟨p, hp, he⟩)
        exact .inr ⟨hd, by simp [hne, hno]⟩
  | @dropped fields members name s default rest ih =>
    rw [List.map_cons, List.nodup_cons] at hnames
    intro p hp
    rcases List.mem_cons.mp hp with rfl | hp
    · exact .inr ⟨default, fun hm => hnames.1 (rest.sublist.subset hm)⟩
    · exact ih hnames.2 p hp

end Shape

/-- A key that no other member repeats finds its own member. -/
theorem lookup_eq_some_of_mem {known : List String} {key : String} {j : Json}
    (hk : key ∈ known) : ∀ {members : List (String × Json)},
    ((members.map Prod.fst).filter known.contains).Nodup → (key, j) ∈ members →
      members.lookup key = some j
  | (k, i) :: members, once, h => by
    rcases List.mem_cons.mp h with heq | hmem
    · cases heq
      simp
    · have hne : key ≠ k := by
        rintro rfl
        have hin : key ∈ (members.map Prod.fst).filter known.contains :=
          List.mem_filter.mpr ⟨List.mem_map_of_mem hmem, by simpa using hk⟩
        simp only [List.map_cons, List.filter_cons, List.contains_eq_mem, hk, decide_true,
          if_true, List.nodup_cons] at once
        exact once.1 (by simpa using hin)
      have once' : ((members.map Prod.fst).filter known.contains).Nodup :=
        once.sublist ((List.sublist_cons_self _ _).filter _)
      rw [List.lookup_cons, beq_eq_false_iff_ne.mpr hne]
      exact lookup_eq_some_of_mem hk once' hmem

namespace Shape

variable {name : String} {fields : List (String × Shape)} {j : Json}

/-- The list form, field by field: the values stand for the first fields and
the other fields are defaults. -/
theorem listed_field : ∀ {fields : List (String × Shape)} {given rest : List Shape}
    {js : List Json}, (fields.map Prod.fst).Nodup → fields.map Prod.snd = given ++ rest →
    List.Forall₂ WrittenAs given js → (∀ s ∈ rest, s.IsDefault) → ∀ p ∈ fields,
      (∃ j ∈ js, ((fields.map Prod.fst).zip js).lookup p.1 = some j ∧ p.2.WrittenAs j) ∨
        (((fields.map Prod.fst).zip js).lookup p.1 = none ∧ p.2.IsDefault)
  | [], _, _, _, _, _, _, _ => List.forall_mem_nil _
  | (f, s) :: fields, given, rest, js, hnames, split, written, default => by
    intro p hp
    cases written with
    | nil =>
      have hrest : p.2 ∈ rest := by
        rw [List.nil_append] at split
        exact split ▸ List.mem_map_of_mem hp
      exact .inr ⟨by simp, default p.2 hrest⟩
    | @cons s' i given' js' hsi hrest =>
      simp only [List.map_cons, List.nodup_cons, List.cons_append, List.cons.injEq] at hnames split
      obtain ⟨rfl, split⟩ := split
      rcases List.mem_cons.mp hp with rfl | hp
      · exact .inl ⟨i, List.mem_cons_self, by simp, hsi⟩
      · have hne : (p.1 == f) = false :=
          beq_eq_false_iff_ne.mpr fun he => hnames.1 (he ▸ List.mem_map_of_mem hp)
        have ih := listed_field hnames.2 split hrest default p hp
        simp only [List.map_cons, List.zip_cons_cons, List.lookup_cons, hne]
        exact ih.imp (fun ⟨j, hj, h⟩ => ⟨j, List.mem_cons_of_mem _ hj, h⟩) id

/-- Every form of a record can be read as a record that holds all its fields. -/
theorem WrittenAs.exists_record (h : WrittenAs (.record name fields) j) (names : List String)
    (hnames : fields.map Prod.fst = names) (hnodup : names.Nodup) :
    ∃ r, j.record? names = some r ∧ fields.Forall (r.Holds j.depth) := by
  subst hnames
  cases h with
  | @object _ _ own foreign members written unknown order =>
    have once : ((members.map Prod.fst).filter (fields.map Prod.fst).contains).Nodup := by
      have hforeign : (foreign.map Prod.fst).filter (fields.map Prod.fst).contains = [] :=
        List.filter_eq_nil_iff.mpr fun k hk => by
          obtain ⟨m, hm, rfl⟩ := List.mem_map.mp hk
          simpa using unknown m hm
      rw [((order.map _).filter _).nodup_iff, List.map_append, List.filter_append, hforeign,
        List.append_nil]
      exact (written.sublist.nodup hnodup).filter _
    refine ⟨_, if_pos once, List.forall_iff_forall_mem.mpr fun p hp => ?_⟩
    have hname : p.1 ∈ fields.map Prod.fst := List.mem_map_of_mem hp
    rcases written.field hnodup p hp with ⟨j, hj, hw⟩ | ⟨hd, hno⟩
    · have hmem : (p.1, j) ∈ members := order.mem_iff.mpr (List.mem_append_left _ hj)
      exact .inl ⟨j, lookup_eq_some_of_mem hname once hmem, hw, Json.depth_lt_obj hmem⟩
    · refine .inr ⟨List.lookup_eq_none_iff.mpr fun m hm => bne_iff_ne.mpr fun he => ?_, hd⟩
      rcases List.mem_append.mp (order.mem_iff.mp hm) with hm | hm
      · exact hno (he ▸ List.mem_map_of_mem hm)
      · exact unknown m hm (he ▸ hname)
  | @listed _ _ given rest js split written default =>
    have hlength : js.length ≤ (fields.map Prod.fst).length := by
      have := congrArg List.length split
      simp only [List.length_map, List.length_append, written.length_eq] at this ⊢
      omega
    refine ⟨_, if_pos hlength, List.forall_iff_forall_mem.mpr fun p hp => ?_⟩
    rcases listed_field hnodup split written default p hp with ⟨j, hj, hfind, hw⟩ | h
    · exact .inl ⟨j, hfind, hw, Json.depth_lt_arr hj⟩
    · exact .inr h

/-- Every form of a variant that carries a record is an object of one key, and
the record under it holds all fields. -/
theorem WrittenAs.exists_payload {tag : String} {n : Nat}
    (h : WrittenAs (.variant tag (.record name fields)) j) (names : List String)
    (hnames : fields.map Prod.fst = names) (hnodup : names.Nodup) (hn : j.depth < n + 1) :
    ∃ v r, j = .obj [(tag, v)] ∧ v.record? names = some r ∧ fields.Forall (r.Holds n) := by
  cases h with
  | @variant _ _ v written =>
    obtain ⟨r, hr, holds⟩ := written.exists_record names hnames hnodup
    have hv : v.depth ≤ n := by
      have := Json.depth_lt_obj (List.mem_singleton.mpr (rfl : (tag, v) = (tag, v)))
      omega
    exact ⟨v, r, rfl, hr, holds.imp fun _ h => h.mono hv⟩

end Shape

/-! ### Readers -/

section Readers

variable {α : Type} {n : Nat} {read : Json → Option α} {shape : α → Shape}

/-- A reader takes every form of a value that nests less than `n` deep for that
value. -/
def ReadsBelow (n : Nat) (read : Json → Option α) (shape : α → Shape) : Prop :=
  ∀ a j, (shape a).WrittenAs j → j.depth < n → read j = some a

/-- A reader takes every form of a value for that value. -/
def Reads (read : Json → Option α) (shape : α → Shape) : Prop :=
  ∀ a j, (shape a).WrittenAs j → read j = some a

theorem Reads.below (h : Reads read shape) (n : Nat) : ReadsBelow n read shape :=
  fun a j written _ => h a j written

theorem ReadsBelow.mono {m : Nat} (h : ReadsBelow n read shape) (hm : m ≤ n) :
    ReadsBelow m read shape :=
  fun a j written hj => h a j written (Nat.lt_of_lt_of_le hj hm)

/-- A list of values that can be read can be read. -/
theorem ReadsBelow.list (h : ReadsBelow n read shape) :
    ReadsBelow n (Json.list? read) (Shape.ofList shape) := by
  intro as j written hn
  cases written with
  | @list _ js written =>
    have hitems : ∀ j ∈ js, j.depth < n := fun j hj =>
      Nat.lt_trans (Json.depth_lt_arr hj) hn
    clear hn
    show js.mapM read = some as
    induction as generalizing js with
    | nil =>
      cases written
      rfl
    | cons a as ih =>
      cases written with
      | @cons _ j _ js hj hjs =>
        rw [List.forall_mem_cons] at hitems
        simp [h a j hj hitems.1, ih hjs hitems.2]

/-- An option of a value that can be read can be read, if the value is never
written as null. -/
theorem ReadsBelow.option (h : ReadsBelow n read shape) (hnull : read .null = none) :
    ReadsBelow n (Json.option? read) (Shape.ofOption shape) := by
  intro o j written hn
  cases o with
  | none =>
    cases written
    rfl
  | some a =>
    cases written with
    | present written =>
      have hread := h a j written hn
      have hj : j ≠ .null := by
        rintro rfl
        rw [hnull] at hread
        cases hread
      unfold Json.option?
      split
      · exact absurd rfl hj
      · rw [hread]
        rfl

namespace Record

variable {r : Record} {field : String} {a default : α}

/-- A field that is no default is there and can be read. -/
theorem Holds.get?_eq (hread : ReadsBelow n read shape) (h : r.Holds n (field, shape a))
    (hdefault : ¬ (shape a).IsDefault) : r.get? field read = some a := by
  obtain ⟨j, hfind, hw, hn⟩ := h.resolve_right fun h => hdefault h.2
  unfold Record.get?
  rw [hfind, Option.bind_some, hread a j hw hn]

/-- A field that may be left out is read, or its default is taken. -/
theorem Holds.getD?_eq (hread : ReadsBelow n read shape) (h : r.Holds n (field, shape a))
    (hdefault : (shape a).IsDefault → a = default) : r.getD? field default read = some a := by
  unfold Record.getD?
  rcases h with ⟨j, hfind, hw, hn⟩ | ⟨hfind, hd⟩
  · rw [hfind]
    exact hread a j hw hn
  · rw [hfind, hdefault hd]

theorem Holds.list_eq {as : List α} (hread : ReadsBelow n read shape)
    (h : r.Holds n (field, .ofList shape as)) : r.getD? field [] (Json.list? read) = some as :=
  h.getD?_eq hread.list fun hd => List.map_eq_nil_iff.mp hd

theorem Holds.option_eq {o : Option α} (hread : ReadsBelow n read shape)
    (hnull : read .null = none) (h : r.Holds n (field, .ofOption shape o)) :
    r.getD? field none (Json.option? read) = some o :=
  h.getD?_eq (hread.option hnull) fun hd => by
    cases o with
    | none => rfl
    | some a => exact hd.elim

end Record

end Readers
end ClassCompiler
