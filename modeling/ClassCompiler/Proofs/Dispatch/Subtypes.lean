import ClassCompiler.Proofs.Dispatch.Superclasses

/-!
# The subtype matrix

A layout numbers the types of the units by their places, and its matrix says
for every two of them whether the first leads up to the second over parents.
The types above a type are collected from a list of those that wait. What the
list has passed is closed under parents as far as they do not wait themselves,
so nothing waits in the end and everything above has been seen; that holds on
graphs with cycles as well. Placeholders have no place in the matrix. They have
no parents either, but the matrix does not depend on that: it is the relation
of the whole graph, looked at where units have types.

Key definitions: `Graph.typeAt`, `Layout.Built`.

Key theorems: `Graph.mem_supertypes`, `Layout.built_of_ofGraph`, `Layout.Built.isSubtype_iff`,
`Layout.subtypes_iff_reaches`.
-/

namespace ClassCompiler
namespace Graph

variable {g : Graph} {us : List CompilationUnit}

instance (g : Graph) (c p : Nat) : Decidable (g.Parent c p) :=
  inferInstanceAs (Decidable (p ∈ (g.node c).parents))

/-! ### The types above a type -/

theorem reaches_of_mem_ascend {seen waiting : List Nat} {b : Nat} (h : b ∈ g.ascend seen waiting) :
    b ∈ seen ∨ ∃ a ∈ waiting, Relation.ReflTransGen g.Parent a b := by
  fun_induction ascend g seen waiting with
  | case1 seen => exact .inl h
  | case2 seen id waiting hs ih =>
    refine (ih h).imp_right ?_
    rintro ⟨a, ha, hab⟩
    exact ⟨a, List.mem_cons_of_mem _ ha, hab⟩
  | case3 seen id waiting hs ih =>
    rcases ih h with hb | ⟨a, ha, hab⟩
    · rcases List.mem_cons.mp hb with rfl | hb
      · exact .inr ⟨b, List.mem_cons_self, .refl⟩
      · exact .inl hb
    · rcases List.mem_append.mp ha with hp | ha
      · exact .inr ⟨id, List.mem_cons_self, .head hp hab⟩
      · exact .inr ⟨a, List.mem_cons_of_mem _ ha, hab⟩

/-- If every parent of a type that has been seen was seen or waits, then in the
end all parents have been seen. -/
theorem ascend_closed (seen waiting : List Nat)
    (hopen : ∀ a ∈ seen, ∀ p, g.Parent a p → p ∈ seen ∨ p ∈ waiting) :
    (∀ a, a ∈ seen ∨ a ∈ waiting → a ∈ g.ascend seen waiting) ∧
      ∀ a ∈ g.ascend seen waiting, ∀ p, g.Parent a p → p ∈ g.ascend seen waiting := by
  fun_induction ascend g seen waiting with
  | case1 seen =>
    have hclosed : ∀ a ∈ seen, ∀ p, g.Parent a p → p ∈ seen :=
      fun a ha p hp => (hopen a ha p hp).resolve_right List.not_mem_nil
    exact ⟨fun a ha => ha.resolve_right List.not_mem_nil, hclosed⟩
  | case2 seen id waiting hs ih =>
    -- the type has been seen before, so that it need not wait
    have hdrop : ∀ p, p ∈ seen ∨ p ∈ id :: waiting → p ∈ seen ∨ p ∈ waiting := by
      intro p hp
      rcases hp with hp | hp
      · exact .inl hp
      · rcases List.mem_cons.mp hp with rfl | hp
        · exact .inl (List.contains_iff_mem.mp hs)
        · exact .inr hp
    obtain ⟨hall, hclosed⟩ := ih fun a ha p hp => hdrop p (hopen a ha p hp)
    exact ⟨fun a ha => hall a (hdrop a ha), hclosed⟩
  | case3 seen id waiting hs ih =>
    have hmove : ∀ p, p ∈ seen ∨ p ∈ id :: waiting →
        p ∈ id :: seen ∨ p ∈ (g.node id).parents ++ waiting := by
      intro p hp
      rcases hp with hp | hp
      · exact .inl (List.mem_cons_of_mem _ hp)
      · rcases List.mem_cons.mp hp with rfl | hp
        · exact .inl List.mem_cons_self
        · exact .inr (List.mem_append_right _ hp)
    have hopen' : ∀ a ∈ id :: seen, ∀ p, g.Parent a p →
        p ∈ id :: seen ∨ p ∈ (g.node id).parents ++ waiting := by
      intro a ha p hp
      rcases List.mem_cons.mp ha with rfl | ha
      · exact .inr (List.mem_append_left _ hp)
      · exact hmove p (hopen a ha p hp)
    obtain ⟨hall, hclosed⟩ := ih hopen'
    exact ⟨fun a ha => hall a (hmove a ha), hclosed⟩

theorem nodup_ascend {seen waiting : List Nat} (h : seen.Nodup) : (g.ascend seen waiting).Nodup := by
  fun_induction ascend g seen waiting with
  | case1 seen => exact h
  | case2 seen id waiting hs ih => exact ih h
  | case3 seen id waiting hs ih =>
    refine ih (List.nodup_cons.mpr ⟨?_, h⟩)
    rwa [← List.contains_iff_mem]

/-- The supertypes are what can be reached over parents, on every graph. -/
@[simp] theorem mem_supertypes {a b : Nat} : b ∈ g.supertypes a ↔ Relation.ReflTransGen g.Parent a b := by
  obtain ⟨hall, hclosed⟩ := g.ascend_closed [] [a] nofun
  constructor
  · intro h
    rcases reaches_of_mem_ascend h with hb | ⟨a', ha, hab⟩
    · cases hb
    · rwa [List.mem_singleton.mp ha] at hab
  · intro h
    induction h with
    | refl => exact hall a (.inr List.mem_cons_self)
    | tail _ hp ih => exact hclosed _ ih _ hp

theorem nodup_supertypes (g : Graph) (a : Nat) : (g.supertypes a).Nodup :=
  nodup_ascend List.nodup_nil

/-! ### The numbers of the units' types -/

/-- The number in the graph of the type that the unit at a place declares. -/
def typeAt (g : Graph) (us : List CompilationUnit) (i : Nat) : Option TypeId :=
  us[i]?.bind fun u => g.find? u.qualifiedName

theorem Represents.find?_qualifiedName (hr : g.Represents us) {u : CompilationUnit} (hu : u ∈ us) :
    ∃ id ∈ g.ids, g.find? u.qualifiedName = some id ∧ u.Describes (g.node id) := by
  obtain ⟨id, hid, hdesc⟩ := hr.entered u hu
  exact ⟨id, hid, hr.sound.index.mpr ⟨hid, hdesc.name⟩, hdesc⟩

end Graph

/-- A program that passes the check is in step with its graph, which is lawful. -/
theorem represents_of_check {us : List CompilationUnit} {allowUnresolved : Bool} {g : Graph}
    (h : check us allowUnresolved = .ok g) : g.Represents us ∧ g.Lawful allowUnresolved := by
  obtain ⟨hdecl, hverify, -⟩ := check_eq_ok.mp h
  have hr := Graph.declareAll_represents hdecl
  exact ⟨hr, hr.verify_eq_ok.mp hverify⟩

namespace Layout

variable {g : Graph} {us : List CompilationUnit} {ids : List TypeId} {l : Layout}

/-- The numbers are found one by one. -/
theorem map_find?_of_typeIds : ∀ {us : List CompilationUnit} {ids : List TypeId},
    typeIds g us = .ok ids → us.map (fun u => g.find? u.qualifiedName) = ids.map some
  | [], ids, h => by
    cases h
    rfl
  | u :: us, ids, h => by
    rw [typeIds] at h
    split at h
    · cases h
    · rename_i id hfind
      split at h
      · cases h
      · rename_i rest hrest
        cases h
        rw [List.map_cons, List.map_cons, hfind, map_find?_of_typeIds hrest]

theorem getElem?_typeIds (h : typeIds g us = .ok ids) (i : Nat) : ids[i]? = g.typeAt us i := by
  have hi := congrArg (·[i]?) (map_find?_of_typeIds h)
  simp only [List.getElem?_map] at hi
  rw [Graph.typeAt]
  rcases hu : us[i]? with _ | u <;> rcases hid : ids[i]? with _ | id <;> simp_all

theorem length_typeIds (h : typeIds g us = .ok ids) : ids.length = us.length := by
  simpa using (congrArg List.length (map_find?_of_typeIds h)).symm

theorem exists_typeIds : ∀ {us : List CompilationUnit},
    (∀ u ∈ us, ∃ id, g.find? u.qualifiedName = some id) → ∃ ids, typeIds g us = .ok ids
  | [], _ => ⟨[], rfl⟩
  | u :: us, h => by
    obtain ⟨⟨id, hid⟩, h⟩ := List.forall_mem_cons.mp h
    obtain ⟨ids, hids⟩ := exists_typeIds h
    exact ⟨id :: ids, by rw [typeIds, hid, hids]⟩

section numbers
variable (hr : g.Represents us) (hi : typeIds g us = .ok ids)
include hr hi

/-- The numbers of the units' types are those of the declared types. -/
theorem mem_typeIds {id : Nat} : id ∈ ids ↔ id ∈ g.ids ∧ (g.node id).isPlaceholder = false := by
  have hmem : id ∈ ids ↔ ∃ u ∈ us, g.find? u.qualifiedName = some id := by
    have := congrArg (some id ∈ ·) (map_find?_of_typeIds hi)
    simpa using this.symm
  rw [hmem]
  constructor
  · rintro ⟨u, hu, hfind⟩
    obtain ⟨id', hid, hfind', hdesc⟩ := hr.find?_qualifiedName hu
    obtain rfl := Option.some.inj (hfind'.symm.trans hfind)
    exact ⟨hid, hdesc.isPlaceholder⟩
  · rintro ⟨hid, hd⟩
    obtain ⟨u, hu, hdesc⟩ := hr.declared id hid hd
    exact ⟨u, hu, hr.sound.index.mpr ⟨hid, hdesc.name⟩⟩

/-- Different units have different types. -/
theorem nodup_typeIds : ids.Nodup := by
  refine List.Nodup.of_map some ?_
  have hnames : ids.map some = (us.map (·.qualifiedName)).map g.find? := by
    rw [List.map_map]
    exact (map_find?_of_typeIds hi).symm
  rw [hnames]
  refine hr.distinct.map_on ?_
  intro name hname name' hname' he
  obtain ⟨u, hu, rfl⟩ := List.mem_map.mp hname
  obtain ⟨id, -, hfind, hdesc⟩ := hr.find?_qualifiedName hu
  have hfind' : g.find? name' = some id := he.symm.trans hfind
  rw [← hdesc.name, (hr.sound.index.mp hfind').2]

end numbers

/-! ### The matrix -/

theorem subtypeRow_eq (supertypes : List TypeId) : ∀ {ids : List TypeId}, ids.Nodup →
    subtypeRow supertypes ids = ids.map supertypes.contains
  | [], _ => rfl
  | id :: ids, h => by
    obtain ⟨hid, h⟩ := List.nodup_cons.mp h
    have hlast : ids.contains id = false := by simpa using hid
    rw [subtypeRow, subtypeRow_eq supertypes h, List.map_cons, hlast, Bool.not_false, Bool.and_true]

/-- What a layout is made of, given the numbers of the units' types. -/
structure Built (g : Graph) (us : List CompilationUnit) (ids : List TypeId) (l : Layout) : Prop where
  numbers : typeIds g us = .ok ids
  classes : plainClassLayouts g 0 0 ids = .ok l.classes
  types : l.types = ids.map fun id => (g.node id).name
  slots : l.interfaceSlots = interfaceColumns g ids
  subtypes : l.subtypes = ids.map fun id => subtypeRow (g.supertypes id) ids
  selector : l.selector = l.classes.map fun c =>
    l.interfaceSlots.map (selectorCell ((l.subtypes[c.typeId]?).getD []) c)

theorem built_of_ofGraph (h : ofGraph g us = .ok l) : ∃ ids, Built g us ids l := by
  rw [ofGraph] at h
  split at h
  · cases h
  · rename_i ids hids
    split at h
    · cases h
    · rename_i classes hclasses
      rw [classLayouts_eq (.nil g)] at hclasses
      cases h
      exact ⟨ids, hids, hclasses, rfl, rfl, rfl, rfl⟩

namespace Built

variable (h : Built g us ids l) (hr : g.Represents us)
include h hr

theorem subtypes_eq : l.subtypes = ids.map fun id => ids.map (g.supertypes id).contains := by
  have hd := nodup_typeIds hr h.numbers
  simp only [h.subtypes, subtypeRow_eq _ hd]

/-- A type is a subtype of another if it leads up to it. -/
theorem isSubtype_iff {i j : Nat} : l.isSubtype i j = true ↔
    ∃ a b, ids[i]? = some a ∧ ids[j]? = some b ∧ Relation.ReflTransGen g.Parent a b := by
  rw [isSubtype, h.subtypes_eq hr, List.getElem?_map]
  rcases ids[i]? with _ | a
  · simp
  · rcases hj : ids[j]? with _ | b
    · simp [hj]
    · simp [hj]

theorem isSubtype_refl {i : Nat} (hi : i < us.length) : l.isSubtype i i = true := by
  have hlt : i < ids.length := length_typeIds h.numbers ▸ hi
  have hid : ids[i]? = some ids[i] := List.getElem?_eq_getElem hlt
  exact (h.isSubtype_iff hr).mpr ⟨ids[i], ids[i], hid, hid, .refl⟩

theorem isSubtype_trans {i j k : Nat} (hij : l.isSubtype i j = true) (hjk : l.isSubtype j k = true) :
    l.isSubtype i k = true := by
  obtain ⟨a, b, ha, hb, hab⟩ := (h.isSubtype_iff hr).mp hij
  obtain ⟨b', c, hb', hc, hbc⟩ := (h.isSubtype_iff hr).mp hjk
  obtain rfl := Option.some.inj (hb.symm.trans hb')
  exact (h.isSubtype_iff hr).mpr ⟨a, c, ha, hc, hab.trans hbc⟩

/-- Two different types that lead up to each other would lie on a cycle. -/
theorem isSubtype_antisymm (hacyclic : ∀ c ∈ g.ids, ¬ Relation.TransGen g.Parent c c) {i j : Nat}
    (hij : l.isSubtype i j = true) (hji : l.isSubtype j i = true) : i = j := by
  obtain ⟨a, b, ha, hb, hab⟩ := (h.isSubtype_iff hr).mp hij
  obtain ⟨b', a', hb', ha', hba⟩ := (h.isSubtype_iff hr).mp hji
  obtain rfl := Option.some.inj (ha.symm.trans ha')
  obtain rfl := Option.some.inj (hb.symm.trans hb')
  have hsame : a = b := by
    by_contra hne
    have hlive := ((mem_typeIds hr h.numbers).mp (List.mem_of_getElem? ha)).1
    have hup := (Relation.reflTransGen_iff_eq_or_transGen.mp hab).resolve_left (Ne.symm hne)
    exact hacyclic a hlive (hup.trans_left hba)
  obtain ⟨hilt, hi⟩ := List.getElem?_eq_some_iff.mp ha
  obtain ⟨hjlt, hj⟩ := List.getElem?_eq_some_iff.mp hb
  exact (nodup_typeIds hr h.numbers).getElem_inj_iff.mp (hi.trans (hsame.trans hj.symm))

end Built

/-- A type is marked as a subtype of another exactly if it leads up to it over
parents, in any graph that units build. -/
theorem subtypes_iff_reaches (us : List CompilationUnit) (g : Graph) (l : Layout)
    (hg : Graph.ofUnits us = .ok g) (hl : ofGraph g us = .ok l) :
    (l.subtypes.length = us.length ∧ ∀ row ∈ l.subtypes, row.length = us.length) ∧
    (∀ i j, l.isSubtype i j = true ↔ ∃ a b, g.typeAt us i = some a ∧ g.typeAt us j = some b ∧
      Relation.ReflTransGen g.Parent a b) ∧
    (∀ i < us.length, l.isSubtype i i = true) ∧
    (∀ i j k, l.isSubtype i j = true → l.isSubtype j k = true → l.isSubtype i k = true) ∧
    (∀ allowUnresolved, check us allowUnresolved = .ok g → ∀ i j, l.isSubtype i j = true →
      l.isSubtype j i = true → i = j) ∧
    ∀ (g' : Graph) (a : TypeId), (g'.supertypes a).Nodup ∧
      ∀ b, b ∈ g'.supertypes a ↔ Relation.ReflTransGen g'.Parent a b := by
  have hr := Graph.declareAll_represents (Graph.ofUnits_eq_ok.mp hg)
  obtain ⟨ids, h⟩ := built_of_ofGraph hl
  have hlen := length_typeIds h.numbers
  refine ⟨⟨?_, ?_⟩, ?_, fun i => h.isSubtype_refl hr, fun i j k => h.isSubtype_trans hr, ?_, ?_⟩
  · rw [h.subtypes, List.length_map, hlen]
  · intro row hrow
    rw [h.subtypes_eq hr] at hrow
    obtain ⟨id, -, rfl⟩ := List.mem_map.mp hrow
    rw [List.length_map, hlen]
  · intro i j
    rw [h.isSubtype_iff hr, getElem?_typeIds h.numbers, getElem?_typeIds h.numbers]
  · intro allowUnresolved hcheck i j
    exact h.isSubtype_antisymm hr (represents_of_check hcheck).2.acyclic
  · exact fun g' a => ⟨g'.nodup_supertypes a, fun b => Graph.mem_supertypes⟩

end Layout

/-- An interface of the unnamed package with no methods. -/
def CompilationUnit.plainInterface (name : String) (parents : List String) : CompilationUnit :=
  of (.ofInterface ⟨[], name, parents.map (⟨·, false, .zero⟩), [], .zero⟩)

/-- Two interfaces that extend each other, and one that extends the first of
them and a type that no unit declares. -/
def entwinedUnits : List CompilationUnit :=
  [.plainInterface "I" ["J"], .plainInterface "J" ["I"], .plainInterface "K" ["L", "I"]]

/-- On a cycle each type is a subtype of the other. -/
theorem entwinedUnits_subtypes : ∃ g l, Graph.ofUnits entwinedUnits = .ok g ∧
    Layout.ofGraph g entwinedUnits = .ok l ∧ l.subtypes.length = 3 ∧ l.isSubtype 0 1 = true ∧
    l.isSubtype 1 0 = true ∧ l.isSubtype 2 1 = true := by
  refine ⟨(Graph.empty.declareAll entwinedUnits).1, _, rfl, rfl, ?_⟩
  obtain ⟨⟨hlen, -⟩, hiff, -⟩ := Layout.subtypes_iff_reaches entwinedUnits
    (Graph.empty.declareAll entwinedUnits).1 _ rfl rfl
  refine ⟨hlen, (hiff 0 1).mpr ⟨0, 1, rfl, rfl, ?_⟩, (hiff 1 0).mpr ⟨1, 0, rfl, rfl, ?_⟩,
    (hiff 2 1).mpr ⟨2, 1, rfl, rfl, ?_⟩⟩
  · exact .single (by decide)
  · exact .single (by decide)
  · exact .head (b := 0) (by decide) (.single (by decide))

end ClassCompiler
