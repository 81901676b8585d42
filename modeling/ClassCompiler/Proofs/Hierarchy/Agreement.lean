import ClassCompiler.Proofs.Hierarchy.Roster

/-!
# Graphs and rosters

A graph and a roster that agree go on to agree, declaration by declaration, and
fail together. What the order of declarations does to a program can so be told
from rosters alone.

Key definitions: `CompilationUnit.Heads`, `Graph.parentNames`, `Graph.Agrees`.

Key theorems: `Graph.Agrees.fold`, `Graph.Agrees.link`, `Graph.Agrees.declare`,
`Graph.Agrees.declareAll`.
-/

namespace ClassCompiler

/-- A declared type with the names, the package and the imports of a unit. -/
structure CompilationUnit.Heads (u : CompilationUnit) (n : TypeNode) : Prop where
  declared : n.isPlaceholder = false
  name : n.name = u.qualifiedName
  identifier : n.identifier = u.decl.name
  package : n.package = u.packageName
  imports : n.imports = u.imports

theorem CompilationUnit.Heads.sees_eq {u t : CompilationUnit} {n : TypeNode} (h : u.Heads n) :
    n.sees t.packageName t.qualifiedName = u.sees t := by
  rw [TypeNode.sees, h.package, h.imports]
  rfl

theorem CompilationUnit.Heads.of_bare {u : CompilationUnit} {n n' : TypeNode} (h : u.Heads n)
    (hb : n'.bare = n.bare) : u.Heads n' :=
  ⟨(TypeNode.isPlaceholder_eq hb).trans h.declared, (TypeNode.name_eq hb).trans h.name,
    (congrArg (·.identifier) hb : n'.identifier = n.identifier).trans h.identifier,
    (congrArg (·.package) hb : n'.package = n.package).trans h.package,
    (congrArg (·.imports) hb : n'.imports = n.imports).trans h.imports⟩

namespace Graph

variable {g g' : Graph} {t : Roster} {u : CompilationUnit} {child : Nat}

/-- The names of the parents of one kind. -/
def parentNames (g : Graph) (r : Relation) (id : Nat) : List String :=
  ((g.node id).related r).map fun p => (g.node p).name

/-- A graph says by name what a roster says. -/
structure Agrees (g : Graph) (t : Roster) : Prop where
  sound : g.Sound
  used : g.Used
  enrolled : ∀ e ∈ t, ∃ id ∈ g.ids, e.unit.Heads (g.node id) ∧ ∀ r, g.parentNames r id = e.named r
  declared : ∀ id ∈ g.ids, (g.node id).isPlaceholder = false →
    ∃ e ∈ t, (g.node id).name = e.unit.qualifiedName

theorem agrees_empty : empty.Agrees [] :=
  have hids : ∀ id, id ∉ empty.ids := fun id h => absurd (mem_ids.mp h).1 (Nat.not_lt_zero id)
  ⟨sound_empty, fun h => absurd h (hids _), nofun, fun id h => absurd h (hids id)⟩

theorem mem_parents_iff {n : TypeNode} {p : Nat} : p ∈ n.parents ↔ ∃ r, p ∈ n.related r := by
  rw [TypeNode.parents, List.mem_append]
  constructor
  · rintro (h | h)
    · exact ⟨.extending, h⟩
    · exact ⟨.implementing, h⟩
  · rintro ⟨r, h⟩
    cases r with
    | extending => exact .inl h
    | implementing => exact .inr h

namespace Agrees

/-- The type of an entry. -/
theorem entry (h : g.Agrees t) {e : Enrolled} (he : e ∈ t) {id : Nat} (hid : id ∈ g.ids)
    (hn : (g.node id).name = e.unit.qualifiedName) :
    e.unit.Heads (g.node id) ∧ ∀ r, g.parentNames r id = e.named r := by
  obtain ⟨id', hid', hheads, hrest⟩ := h.enrolled e he
  obtain rfl := h.sound.name_inj hid hid' (hn.trans hheads.name.symm)
  exact ⟨hheads, hrest⟩

/-- The children of a type are the entries that name it. -/
theorem mem_children_iff (h : g.Agrees t) {p c : Nat} (hp : p ∈ g.ids) :
    c ∈ (g.node p).children ↔ c ∈ g.ids ∧ ∃ e ∈ t, (g.node c).name = e.unit.qualifiedName ∧
      e.names (g.node p).name = true := by
  constructor
  · intro hc
    have hmem := h.sound.child_mem hp hc
    have hpar := (h.sound.mem_children hp hmem).mp hc
    have hd : (g.node c).isPlaceholder = false := by
      rcases hph : (g.node c).isPlaceholder
      · rfl
      · rw [(h.sound.placeholder hmem hph).1] at hpar
        cases hpar
    obtain ⟨e, he, hname⟩ := h.declared c hmem hd
    obtain ⟨-, hnames⟩ := h.entry he hmem hname
    obtain ⟨r, hr⟩ := mem_parents_iff.mp hpar
    refine ⟨hmem, e, he, hname, Enrolled.names_iff.mpr ⟨r, ?_⟩⟩
    rw [← hnames r]
    exact List.mem_map_of_mem hr
  · rintro ⟨hmem, e, he, hname, hx⟩
    obtain ⟨-, hnames⟩ := h.entry he hmem hname
    obtain ⟨r, hr⟩ := Enrolled.names_iff.mp hx
    rw [← hnames r] at hr
    obtain ⟨q, hq, hqn⟩ := List.mem_map.mp hr
    have hpar := mem_parents_iff.mpr ⟨r, hq⟩
    obtain rfl := h.sound.name_inj (h.sound.parent_mem hmem hpar) hp hqn
    exact (h.sound.mem_children hp hmem).mpr hpar

theorem declares_iff (h : g.Agrees t) {id : Nat} (hid : id ∈ g.ids) :
    t.declares (g.node id).name = true ↔ (g.node id).isPlaceholder = false := by
  rw [Roster.declares_iff]
  constructor
  · rintro ⟨e, he, hname⟩
    exact (h.entry he hid hname.symm).1.declared
  · intro hd
    obtain ⟨e, he, hname⟩ := h.declared id hid hd
    exact ⟨e, he, hname.symm⟩

/-- The names in the index are the known names. -/
theorem knows_eq (h : g.Agrees t) (x : String) : t.knows x = (g.find? x).isSome := by
  rw [Bool.eq_iff_iff, Roster.knows_iff, Option.isSome_iff_exists]
  constructor
  · rintro (hd | hm)
    · obtain ⟨e, he, rfl⟩ := Roster.declares_iff.mp hd
      obtain ⟨id, hid, hheads, -⟩ := h.enrolled e he
      exact ⟨id, h.sound.index.mpr ⟨hid, hheads.name⟩⟩
    · obtain ⟨e, he, hx⟩ := Roster.mentions_iff.mp hm
      obtain ⟨id, hid, -, hnames⟩ := h.enrolled e he
      obtain ⟨r, hr⟩ := Enrolled.names_iff.mp hx
      rw [← hnames r] at hr
      obtain ⟨p, hp, rfl⟩ := List.mem_map.mp hr
      exact ⟨p, h.sound.find?_name (h.sound.parent_mem hid (mem_parents_iff.mpr ⟨r, hp⟩))⟩
  · rintro ⟨id, hfind⟩
    obtain ⟨hid, rfl⟩ := h.sound.index.mp hfind
    rcases hph : (g.node id).isPlaceholder
    · exact .inl ((h.declares_iff hid).mpr hph)
    · obtain ⟨c, hc⟩ := List.exists_mem_of_ne_nil _ (h.used hid hph)
      obtain ⟨-, e, he, -, hx⟩ := (h.mem_children_iff hid).mp hc
      exact .inr (Roster.mentions_iff.mpr ⟨e, he, hx⟩)

end Agrees

/-! ### Looking a name up -/

theorem name_fetch (hg : g.Sound) (name : String) :
    ((g.fetch name).1.node (g.fetch name).2).name = name :=
  ((g.fetches_fetch name).sound hg).1.index.mp (find?_fetch g name) |>.2

theorem findOnDemand?_eq (n : TypeNode) (name : String) :
    g.findOnDemand? n name =
      ((n.imports.filter (·.onDemand)).find? fun i => (g.find? (Text.qualify i.name name)).isSome).bind
        fun i => g.find? (Text.qualify i.name name) := by
  rw [findOnDemand?]
  induction n.imports.filter (·.onDemand) with
  | nil => rfl
  | cons i is ih =>
    rw [List.findSome?_cons, List.find?_cons]
    rcases h : g.find? (Text.qualify i.name name) with _ | id
    · simpa [h] using ih
    · simp [h]

/-- A look-up leads to the type that the known names give. -/
theorem name_resolve (hg : g.Sound) (hu : u.Heads (g.node child)) (name : String) :
    ((g.resolve child name).1.node (g.resolve child name).2).name =
      u.resolve (fun x => (g.find? x).isSome) name := by
  have himported : (g.node child).importedName? name = u.importedName? name := by
    rw [TypeNode.importedName?, hu.imports]
    rfl
  rw [resolve, CompilationUnit.resolve]
  rcases hfind : g.find? name with _ | id
  · simp only [Option.isSome_none, Bool.false_or]
    by_cases hdot : Text.isDotted name = true
    · rw [if_pos hdot, if_pos hdot]
      exact name_fetch hg name
    rw [if_neg hdot, if_neg hdot, himported]
    rcases u.importedName? name with _ | qualified
    · simp only [findOnDemand?_eq, hu.imports, hu.package]
      rcases hd : (u.imports.filter (·.onDemand)).find?
        fun i => (g.find? (Text.qualify i.name name)).isSome with _ | i
      · simp only [hd, Option.bind_none]
        rcases hown : g.find? (Text.qualify u.packageName name) with _ | id
        · exact name_fetch hg name
        · exact (hg.index.mp hown).2
      · have hsome : (g.find? (Text.qualify i.name name)).isSome = true := by
          simpa using List.find?_some hd
        obtain ⟨id, hid⟩ := Option.isSome_iff_exists.mp hsome
        simp only [hd, Option.bind_some, hid]
        exact (hg.index.mp hid).2
    · exact name_fetch hg qualified
  · exact (hg.index.mp hfind).2

/-! ### The stages of a declaration -/

/-- An entry of a roster through a change that leaves names, edges and what
look-ups read alone. -/
theorem Agrees.enrolled_of_eq (h : g.Agrees t) {e : Enrolled} (he : e ∈ t)
    (hkept : ∀ id ∈ g.ids, id ∈ g'.ids ∧ (g'.node id).name = (g.node id).name)
    (hsame : ∀ id ∈ g.ids, e.unit.Heads (g.node id) →
      e.unit.Heads (g'.node id) ∧ ∀ r, (g'.node id).related r = (g.node id).related r) :
    ∃ id ∈ g'.ids, e.unit.Heads (g'.node id) ∧ ∀ r, g'.parentNames r id = e.named r := by
  obtain ⟨id, hid, hheads, hnames⟩ := h.enrolled e he
  obtain ⟨hheads', hr⟩ := hsame id hid hheads
  refine ⟨id, (hkept id hid).1, hheads', fun r => ?_⟩
  rw [← hnames r, parentNames, parentNames, hr r]
  refine List.map_congr_left fun p hp => (hkept p ?_).2
  exact h.sound.parent_mem hid (mem_parents_iff.mpr ⟨r, hp⟩)

/-- A look-up declares nothing. -/
theorem Fetches.mem_of_declared {id other : Nat} (h : g.Fetches (g', id)) (ho : other ∈ g'.ids)
    (hd : (g'.node other).isPlaceholder = false) : other ∈ g.ids := by
  cases h with
  | found => exact ho
  | added =>
    refine (mem_ids_addPlaceholder.mp ho).resolve_right fun he => ?_
    rw [node_addPlaceholder, if_pos he] at hd
    cases hd

/-- A unit is entered without parents. -/
theorem Agrees.describe (h : g.Agrees t) (hfetch : g.fetch u.qualifiedName = (g', child))
    (hph : (g'.node child).isPlaceholder = true) :
    (g'.modify child (describe u)).Agrees (t ++ [⟨u, []⟩]) ∧
      child ∈ (g'.modify child (Graph.describe u)).ids ∧
      u.Heads ((g'.modify child (Graph.describe u)).node child) := by
  have hb := building_describe h.sound h.used hfetch hph
  have hf : g.Fetches (g', child) := hfetch ▸ g.fetches_fetch _
  obtain ⟨hsound, hmem⟩ := hf.sound h.sound
  have hlt := (mem_ids.mp hmem).1
  have hnode := fun id => node_modify g' child id (Graph.describe u) hlt
  have hids : ∀ {id}, id ∈ (g'.modify child (Graph.describe u)).ids ↔ id ∈ g'.ids :=
    mem_ids_modify hlt (by rfl)
  have hname : (g'.node child).name = u.qualifiedName := by
    have := name_fetch h.sound u.qualifiedName
    rwa [hfetch] at this
  have hheads : u.Heads ((g'.modify child (Graph.describe u)).node child) := by
    rw [hnode, if_pos rfl]
    exact ⟨rfl, hname, rfl, rfl, rfl⟩
  refine ⟨⟨hb.sound, hb.used, ?_, ?_⟩, hb.mem, hheads⟩
  · intro e he
    rcases List.mem_append.mp he with he | he
    · refine h.enrolled_of_eq he (fun id hid => ⟨hids.mpr (hf.mem_ids hid), ?_⟩) ?_
      · rw [hnode, ← hf.node (mem_ids.mp hid).1]
        split
        · rename_i heq
          rw [heq]
          rfl
        · rfl
      · intro id hid he
        have hne : id ≠ child := by
          rintro rfl
          rw [hf.node (mem_ids.mp hid).1, he.declared] at hph
          cases hph
        rw [hnode, if_neg hne, hf.node (mem_ids.mp hid).1]
        exact ⟨he, fun _ => rfl⟩
    · obtain rfl := List.mem_singleton.mp he
      refine ⟨child, hb.mem, hheads, fun r => ?_⟩
      have := hb.edges r
      simp only [List.filter_nil, List.length_nil, List.length_eq_zero_iff] at this
      rw [parentNames, this]
      rfl
  · intro id hid hd
    by_cases hne : id = child
    · exact ⟨⟨u, []⟩, by simp, hne ▸ hheads.name⟩
    rw [hnode, if_neg hne] at hd ⊢
    rw [hids] at hid
    have hid' := hf.mem_of_declared hid hd
    rw [hf.node (mem_ids.mp hid').1] at hd ⊢
    obtain ⟨e, he, hn⟩ := h.declared id hid' hd
    exact ⟨e, List.mem_append_left _ he, hn⟩

theorem Agrees.building {acc : List (Relation × String)} (h : g.Agrees (t ++ [⟨u, acc⟩]))
    (hc : child ∈ g.ids) (hu : u.Heads (g.node child)) : g.Building child acc := by
  refine ⟨h.sound, h.used, hc, hu.declared, fun r => ?_⟩
  obtain ⟨-, hnames⟩ := h.entry (e := ⟨u, acc⟩) (by simp) hc hu.name
  simpa [parentNames, Enrolled.named] using congrArg List.length (hnames r)

theorem parentNames_folded {old new id : Nat} (hg : g.Sound) (hf : g.Folded old new g')
    (hp : (g.node new).parents = []) (hold : old ∈ g.ids) (hid : id ∈ g.ids) (hne : id ≠ old)
    (r : Relation) :
    g'.parentNames r id = (g.parentNames r id).map
      fun x => if x = (g.node old).name then (g.node new).name else x := by
  have hname : ∀ {p}, p ∈ (g.node id).related r → (p = old ↔ (g.node p).name = (g.node old).name) := by
    intro p hp
    refine ⟨fun h => h ▸ rfl, fun h => hg.name_inj ?_ hold h⟩
    exact hg.parent_mem hid (mem_parents_iff.mpr ⟨r, hp⟩)
  rw [parentNames, parentNames, hf.related r hne hp, List.map_map]
  split
  · rw [List.map_map]
    refine List.map_congr_left fun p hp => ?_
    simp only [Function.comp_apply, ← hname hp, TypeNode.name_eq (hf.bare _)]
    split <;> rfl
  · rename_i hchild
    refine List.map_congr_left fun p hp => ?_
    have hpo : p ≠ old := by
      rintro rfl
      exact hchild ((hg.mem_children hold hid).mpr (mem_parents_iff.mpr ⟨r, hp⟩))
    simp only [Function.comp_apply, ← hname hp, hpo, if_false, TypeNode.name_eq (hf.bare _)]

theorem Agrees.standIn?_eq_some (h : g.Agrees (t ++ [⟨u, []⟩])) (hu : u.Heads (g.node child))
    {old : Nat} :
    g.standIn? child = some old ↔ t.foldsInto u = true ∧ g.find? u.decl.name = some old := by
  rw [Graph.standIn?_eq_some, hu.name, hu.identifier, hu.package, Roster.foldsInto]
  simp only [Bool.and_eq_true, decide_eq_true_eq, Bool.not_eq_true', List.all_eq_true,
    Bool.or_eq_true]
  have hdeclares : u.qualifiedName ≠ u.decl.name →
      Roster.declares (t ++ [⟨u, []⟩]) u.decl.name = t.declares u.decl.name := by
    intro hne
    simp [Roster.declares, hne]
  have hmentions : Roster.mentions (t ++ [⟨u, []⟩]) u.decl.name = t.mentions u.decl.name := by
    simp [Roster.mentions, Enrolled.names]
  constructor
  · rintro ⟨hne, hfind, hph, hchildren, hsees⟩
    obtain ⟨hold, hname⟩ := h.sound.index.mp hfind
    have hmem := fun c => hname ▸ h.mem_children_iff (c := c) hold
    refine ⟨⟨⟨⟨hne, ?_⟩, ?_⟩, ?_⟩, hfind⟩
    · rw [← hdeclares hne, Bool.eq_false_iff, ← hname, Ne, h.declares_iff hold, hph]
      decide
    · obtain ⟨c, hc⟩ := List.exists_mem_of_ne_nil _ hchildren
      obtain ⟨-, e, he, -, hx⟩ := (hmem c).mp hc
      rw [← hmentions]
      exact Roster.mentions_iff.mpr ⟨e, he, hx⟩
    · intro e he
      rcases hx : e.names u.decl.name
      · exact .inl rfl
      · have he' := List.mem_append_left [⟨u, []⟩] he
        obtain ⟨c, hc, hheads, -⟩ := h.enrolled e he'
        rw [← hheads.sees_eq]
        exact .inr (hsees c ((hmem c).mpr ⟨hc, e, he', hheads.name, hx⟩))
  · rintro ⟨⟨⟨⟨hne, hdecl⟩, hmen⟩, hsees⟩, hfind⟩
    obtain ⟨hold, hname⟩ := h.sound.index.mp hfind
    have hph : (g.node old).isPlaceholder = true := by
      rcases hph : (g.node old).isPlaceholder
      · rw [← h.declares_iff hold, hname, hdeclares hne, hdecl] at hph
        cases hph
      · rfl
    refine ⟨hne, hfind, hph, h.used hold hph, fun c hc => ?_⟩
    obtain ⟨hcid, e, he, hcn, hx⟩ := (h.mem_children_iff hold).mp hc
    rw [(h.entry he hcid hcn).1.sees_eq]
    rw [hname] at hx
    rcases List.mem_append.mp he with he | he
    · exact (hsees e he).resolve_left (by simp [hx])
    · obtain rfl := List.mem_singleton.mp he
      simp [Enrolled.names] at hx

/-- A fold renames a placeholder, or fails in the graph and in the roster. -/
theorem Agrees.fold (h : g.Agrees (t ++ [⟨u, []⟩])) (hc : child ∈ g.ids) (hu : u.Heads (g.node child)) :
    (t.fold? u = none ∧ ∃ g' v, g.fold child = (g', .error v)) ∨
    ∃ t' g', t.fold? u = some t' ∧ g.fold child = (g', .ok ()) ∧ g'.Agrees (t' ++ [⟨u, []⟩]) ∧
      child ∈ g'.ids ∧ u.Heads (g'.node child) := by
  have hb := h.building hc hu
  rcases hs : g.standIn? child with _ | old
  · have hfolds : t.foldsInto u = false := by
      rw [Bool.eq_false_iff]
      intro hfolds
      have hknown : Roster.knows (t ++ [⟨u, []⟩]) u.decl.name = true := by
        rw [Roster.foldsInto] at hfolds
        simp only [Bool.and_eq_true] at hfolds
        obtain ⟨e, he, hx⟩ := Roster.mentions_iff.mp hfolds.1.2
        exact Roster.knows_iff.mpr (.inr (Roster.mentions_iff.mpr ⟨e, List.mem_append_left _ he, hx⟩))
      rw [h.knows_eq] at hknown
      obtain ⟨old, hold⟩ := Option.isSome_iff_exists.mp hknown
      cases hs.symm.trans ((h.standIn?_eq_some hu).mpr ⟨hfolds, hold⟩)
    refine .inr ⟨t, g, ?_, ?_, h, hc, hu⟩
    · rw [Roster.fold?, hfolds]
      rfl
    · rw [Graph.fold, hs]
  obtain ⟨hfolds, hfind⟩ := (h.standIn?_eq_some hu).mp hs
  obtain ⟨hold, hname⟩ := h.sound.index.mp hfind
  obtain ⟨-, -, hph, -, -⟩ := Graph.standIn?_eq_some.mp hs
  have hp := hb.parents_nil
  have hfoldable := h.sound.foldable hc hu.declared hp hs
  -- some entry would have the new type twice exactly if a child of the placeholder has it already
  have hdup : (t.any fun e => e.names u.decl.name && e.names u.qualifiedName) = true ↔
      ∃ c ∈ (g.node old).children, child ∈ (g.node c).parents := by
    simp only [List.any_eq_true, Bool.and_eq_true]
    constructor
    · rintro ⟨e, he, hx, hy⟩
      have he' := List.mem_append_left [⟨u, []⟩] he
      obtain ⟨c, hcid, hheads, -⟩ := h.enrolled e he'
      refine ⟨c, (h.mem_children_iff hold).mpr ⟨hcid, e, he', hheads.name, hname ▸ hx⟩, ?_⟩
      exact (h.sound.mem_children hc hcid).mp
        ((h.mem_children_iff hc).mpr ⟨hcid, e, he', hheads.name, hu.name ▸ hy⟩)
    · rintro ⟨c, hchild, hpar⟩
      obtain ⟨hcid, e, he, hcn, hx⟩ := (h.mem_children_iff hold).mp hchild
      obtain ⟨r, hr⟩ := mem_parents_iff.mp hpar
      have hy : u.qualifiedName ∈ e.named r := by
        rw [← (h.entry he hcid hcn).2 r, ← hu.name]
        exact List.mem_map_of_mem hr
      rcases List.mem_append.mp he with he | he
      · exact ⟨e, he, hname ▸ hx, Enrolled.names_iff.mpr ⟨r, hy⟩⟩
      · obtain rfl := List.mem_singleton.mp he
        simp [Enrolled.names] at hx
  rw [Roster.fold?, if_pos hfolds]
  by_cases hany : (t.any fun e => e.names u.decl.name && e.names u.qualifiedName) = true
  · rw [if_pos hany]
    refine .inl ⟨rfl, ?_⟩
    rcases hr : g.fold child with ⟨g', v | _⟩
    · exact ⟨g', v, rfl⟩
    · obtain ⟨c, hc, hpar⟩ := hdup.mp hany
      exact absurd hpar ((fold_ok hs hfoldable hr).1 c hc)
  · rw [if_neg hany]
    have hnone : ∀ c ∈ (g.node old).children, child ∉ (g.node c).parents :=
      fun c hc hpar => hany (hdup.mpr ⟨c, hc, hpar⟩)
    obtain ⟨g', hr⟩ := exists_fold_ok hs hfoldable hnone
    obtain ⟨-, hf⟩ := fold_ok hs hfoldable hr
    obtain ⟨hb', -, hbare⟩ := hb.fold hr
    have hu' := hu.of_bare hbare
    refine .inr ⟨_, g', rfl, hr, ⟨hb'.sound, hb'.used, ?_, ?_⟩, hb'.mem, hu'⟩
    · intro e' he'
      rcases List.mem_append.mp he' with he' | he'
      · obtain ⟨e, he, rfl⟩ := List.mem_map.mp he'
        obtain ⟨id, hid, hheads, hnames⟩ := h.enrolled e (List.mem_append_left _ he)
        have hne : id ≠ old := by
          rintro rfl
          cases hph.symm.trans hheads.declared
        refine ⟨id, hf.mem_ids.mpr ⟨hid, hne⟩, hheads.of_bare (hf.bare id), fun r => ?_⟩
        rw [parentNames_folded h.sound hf hp hold hid hne, hnames, Enrolled.named_rename, hname, hu.name]
      · obtain rfl := List.mem_singleton.mp he'
        refine ⟨child, hb'.mem, hu', fun r => ?_⟩
        have := hb'.edges r
        simp only [List.filter_nil, List.length_nil, List.length_eq_zero_iff] at this
        rw [parentNames, this]
        rfl
    · intro id hid hd
      rw [TypeNode.isPlaceholder_eq (hf.bare id)] at hd
      obtain ⟨e, he, hn⟩ := h.declared id (hf.mem_ids.mp hid).1 hd
      rw [TypeNode.name_eq (hf.bare id)]
      rcases List.mem_append.mp he with he | he
      · exact ⟨_, List.mem_append_left _ (List.mem_map_of_mem he), hn⟩
      · exact ⟨e, List.mem_append_right _ he, hn⟩

theorem parentNames_connect {parent : Nat} {r : Relation} (hc : child < g.nodes.length)
    (hp : parent < g.nodes.length) (r' : Relation) (id : Nat) :
    (g.connect child parent r).parentNames r' id =
      g.parentNames r' id ++ if id = child ∧ r' = r then [(g.node parent).name] else [] := by
  simp only [parentNames, related_connect hc hp, List.map_append, TypeNode.name_eq (bare_connect hc hp _)]
  split <;> rfl

/-- A parent is entered under the name that the known names give, or is a
parent already. -/
theorem Agrees.link {acc : List (Relation × String)} (h : g.Agrees (t ++ [⟨u, acc⟩]))
    (hfresh : t.declares u.qualifiedName = false) (hc : child ∈ g.ids) (hu : u.Heads (g.node child))
    (r : Relation) (name : String) {x : String} (hx : u.resolve (Roster.knows (t ++ [⟨u, acc⟩])) name = x) :
    (acc.any (·.2 = x) = true ∧ ∃ v, g.link child r name = .error v) ∨
    (acc.any (·.2 = x) = false ∧ ∃ g', g.link child r name = .ok g' ∧
      g'.Agrees (t ++ [⟨u, acc ++ [(r, x)]⟩]) ∧ child ∈ g'.ids ∧ u.Heads (g'.node child)) := by
  rcases hresolve : g.resolve child name with ⟨g₁, parent⟩
  have hf : g.Fetches (g₁, parent) := hresolve ▸ g.fetches_resolve child name
  obtain ⟨hsound, hparent⟩ := hf.sound h.sound
  have hkept : ∀ id ∈ g.ids, g₁.node id = g.node id := fun id hid => hf.node (mem_ids.mp hid).1
  have hpname : (g₁.node parent).name = x := by
    have := name_resolve h.sound hu name
    rw [hresolve] at this
    rw [this, ← hx, funext h.knows_eq]
  obtain ⟨-, hnames⟩ := h.entry (e := ⟨u, acc⟩) (by simp) hc hu.name
  have hdup : acc.any (·.2 = x) = true ↔ parent ∈ (g₁.node child).parents := by
    rw [hkept child hc]
    have hiff : acc.any (·.2 = x) = true ↔ ∃ r, x ∈ g.parentNames r child := by
      simp only [hnames]
      exact Enrolled.names_iff (e := ⟨u, acc⟩)
    rw [hiff, mem_parents_iff]
    refine exists_congr fun r' => ?_
    have hlive : ∀ q ∈ (g.node child).related r', q ∈ g.ids :=
      fun q hq => h.sound.parent_mem hc (mem_parents_iff.mpr ⟨r', hq⟩)
    rw [parentNames, List.mem_map]
    constructor
    · rintro ⟨q, hq, hqx⟩
      rw [← hkept q (hlive q hq), ← hpname] at hqx
      rwa [← hsound.name_inj (hf.mem_ids (hlive q hq)) hparent hqx]
    · intro hq
      exact ⟨parent, hq, by rw [← hkept parent (hlive parent hq), hpname]⟩
  rcases hany : acc.any (·.2 = x)
  · have hnew : parent ∉ (g₁.node child).parents := fun hp => by simp [hdup.mpr hp] at hany
    have hlink : g.link child r name = .ok (g₁.connect child parent r) := by
      simp [Graph.link, hresolve, hnew]
    have hclt := (mem_ids.mp (hf.mem_ids hc)).1
    have hplt := (mem_ids.mp hparent).1
    obtain ⟨hb, -, hbare⟩ := (h.building hc hu).link hlink
    have hu' := hu.of_bare hbare
    have hnode : ∀ id ∈ g.ids, id ∈ (g₁.connect child parent r).ids ∧
        ((g₁.connect child parent r).node id).bare = (g.node id).bare := fun id hid =>
      ⟨(mem_ids_connect hclt hplt _).mpr (hf.mem_ids hid), by rw [bare_connect hclt hplt, hkept id hid]⟩
    refine .inr ⟨rfl, _, hlink, ⟨hb.sound, hb.used, ?_, ?_⟩, hb.mem, hu'⟩
    · intro e he
      rcases List.mem_append.mp he with he | he
      · refine h.enrolled_of_eq (List.mem_append_left _ he)
          (fun id hid => ⟨(hnode id hid).1, TypeNode.name_eq (hnode id hid).2⟩) fun id hid hheads => ?_
        have hne : id ≠ child := by
          rintro rfl
          have : t.declares u.qualifiedName = true :=
            Roster.declares_iff.mpr ⟨e, he, hheads.name.symm.trans hu.name⟩
          cases hfresh.symm.trans this
        refine ⟨hheads.of_bare (hnode id hid).2, fun r' => ?_⟩
        rw [related_connect hclt hplt, if_neg fun h => hne h.1, List.append_nil, hkept id hid]
      · obtain rfl := List.mem_singleton.mp he
        refine ⟨child, hb.mem, hu', fun r' => ?_⟩
        have hold : g₁.parentNames r' child = g.parentNames r' child := by
          rw [parentNames, parentNames, hkept child hc]
          refine List.map_congr_left fun q hq => ?_
          rw [hkept q (h.sound.parent_mem hc (mem_parents_iff.mpr ⟨r', hq⟩))]
        rw [parentNames_connect hclt hplt, hold, hnames, hpname, Enrolled.named_append]
        simp
    · intro id hid hd
      rw [mem_ids_connect hclt hplt] at hid
      rw [TypeNode.isPlaceholder_eq (bare_connect hclt hplt id)] at hd
      have hid' := hf.mem_of_declared hid hd
      rw [hkept id hid'] at hd
      obtain ⟨e, he, hn⟩ := h.declared id hid' hd
      rw [TypeNode.name_eq (hnode id hid').2]
      rcases List.mem_append.mp he with he | he
      · exact ⟨e, List.mem_append_left _ he, hn⟩
      · obtain rfl := List.mem_singleton.mp he
        exact ⟨_, List.mem_append_right _ (List.mem_singleton_self _), hn⟩
  · refine .inl ⟨rfl, ?_⟩
    have hin := hdup.mp hany
    exact ⟨.duplicateParent (g₁.node child).name name, by simp [Graph.link, hresolve, hin]⟩

theorem Agrees.linkAll : ∀ (rest : List (Relation × String)) {acc : List (Relation × String)}
    {g : Graph},
    g.Agrees (t ++ [⟨u, acc⟩]) → t.declares u.qualifiedName = false → child ∈ g.ids →
    u.Heads (g.node child) →
    (t.link? u acc rest = none ∧ ∃ g' v, g.linkAll child rest = (g', .error v)) ∨
    ∃ t' g', t.link? u acc rest = some t' ∧ g.linkAll child rest = (g', .ok ()) ∧ g'.Agrees t' ∧
      child ∈ g'.ids ∧ u.Heads (g'.node child)
  | [], acc, g, h, _, hc, hu => .inr ⟨_, g, rfl, rfl, h, hc, hu⟩
  | (r, name) :: rest, acc, g, h, hfresh, hc, hu => by
    rw [Roster.link?, Graph.linkAll]
    rcases h.link hfresh hc hu r name rfl with ⟨hany, v, hl⟩ | ⟨hany, g', hl, h', hc', hu'⟩
    · refine .inl ⟨if_pos hany, g, v, ?_⟩
      rw [hl]
    · simp only [hany, hl]
      exact linkAll rest h' hfresh hc' hu'

/-- The methods of a type do not matter. -/
theorem Agrees.modify (h : g.Agrees t) (hc : child ∈ g.ids) {f : TypeNode → TypeNode}
    (hhead : ∀ v : CompilationUnit, v.Heads (f (g.node child)) ↔ v.Heads (g.node child))
    (hname : (f (g.node child)).name = (g.node child).name)
    (hrel : ∀ r, (f (g.node child)).related r = (g.node child).related r)
    (hchildren : (f (g.node child)).children = (g.node child).children)
    (hlive : (f (g.node child)).isLive = (g.node child).isLive)
    (hdeclared : (f (g.node child)).isPlaceholder = false)
    (hd : (g.node child).isPlaceholder = false) : (g.modify child f).Agrees t := by
  have hlt := (mem_ids.mp hc).1
  have hids : ∀ {id}, id ∈ (g.modify child f).ids ↔ id ∈ g.ids := mem_ids_modify hlt hlive
  have hnode := fun id => node_modify g child id f hlt
  have hparents : (f (g.node child)).parents = (g.node child).parents := by
    have hext := hrel .extending
    have himp := hrel .implementing
    simp only [TypeNode.related] at hext himp
    rw [TypeNode.parents, hext, himp]
    rfl
  refine ⟨h.sound.modify hc hname hparents hchildren hlive hdeclared, ?_, ?_, ?_⟩
  · intro id hid hp
    rw [hnode] at hp ⊢
    split at hp
    · cases hdeclared.symm.trans hp
    · rename_i hne
      rw [if_neg hne]
      exact h.used (hids.mp hid) hp
  · intro e he
    refine h.enrolled_of_eq he (fun id hid => ⟨hids.mpr hid, ?_⟩) fun id hid hheads => ?_
    · rw [hnode]
      split
      · rw [hname, ‹id = child›]
      · rfl
    · rw [hnode]
      split
      · rename_i heq
        subst heq
        exact ⟨(hhead _).mpr hheads, hrel⟩
      · exact ⟨hheads, fun _ => rfl⟩
  · intro id hid hp
    rw [hnode] at hp ⊢
    split
    · rename_i heq
      subst heq
      rw [hname]
      exact h.declared id hc hd
    · rename_i hne
      rw [if_neg hne] at hp
      exact h.declared id (hids.mp hid) hp

/-- A graph and a roster that agree take the next declaration alike. -/
theorem Agrees.declare (h : g.Agrees t) (u : CompilationUnit) :
    (t.declare? u = none ∧ ∃ g' e, g.declare u = (g', .error e)) ∨
    ∃ t' g' id, t.declare? u = some t' ∧ g.declare u = (g', .ok id) ∧ g'.Agrees t' := by
  rw [Roster.declare?, Graph.declare]
  by_cases hblank : Text.isBlank u.decl.name = true
  · exact .inl ⟨by simp [hblank], g, _, if_pos hblank⟩
  rw [if_neg hblank]
  rcases hfetch : g.fetch u.qualifiedName with ⟨g₁, child⟩
  have hf : g.Fetches (g₁, child) := hfetch ▸ g.fetches_fetch _
  obtain ⟨hsound, hmem⟩ := hf.sound h.sound
  have hname : (g₁.node child).name = u.qualifiedName := by
    have := name_fetch h.sound u.qualifiedName
    rwa [hfetch] at this
  have hdecl : t.declares u.qualifiedName = !(g₁.node child).isPlaceholder := by
    rw [Bool.eq_iff_iff, Roster.declares_iff, Bool.not_eq_true']
    constructor
    · rintro ⟨e, he, hn⟩
      obtain ⟨id, hid, hheads, -⟩ := h.enrolled e he
      have hkept := hf.node (mem_ids.mp hid).1
      obtain rfl := hsound.name_inj (hf.mem_ids hid) hmem (by rw [hkept, hheads.name, hn, hname])
      rw [hkept, hheads.declared]
    · intro hd
      have hid := hf.mem_of_declared hmem hd
      have hkept := hf.node (mem_ids.mp hid).1
      obtain ⟨e, he, hn⟩ := h.declared child hid (hkept ▸ hd)
      exact ⟨e, he, by rw [← hn, ← hkept, hname]⟩
  simp only [hdecl]
  rcases hph : (g₁.node child).isPlaceholder
  · exact .inl ⟨by simp, g₁, _, rfl⟩
  have hfresh : t.declares u.qualifiedName = false := by rw [hdecl, hph]; rfl
  obtain ⟨h₁, hc₁, hu₁⟩ := h.describe hfetch hph
  rcases h₁.fold hc₁ hu₁ with ⟨ht, g₂, v, hg⟩ | ⟨t₂, g₂, ht, hg, h₂, hc₂, hu₂⟩
  · refine .inl ⟨by simp [hblank, ht], g₂, .hierarchy v, ?_⟩
    simp [hg]
  have hfresh₂ : t₂.declares u.qualifiedName = false := by
    rw [Roster.declares_eq, Roster.map_unit_fold? ht, ← Roster.declares_eq, hfresh]
  rcases h₂.linkAll u.decl.parents hfresh₂ hc₂ hu₂ with
    ⟨hl, g₃, v, hg₃⟩ | ⟨t₃, g₃, hl, hg₃, h₃, hc₃, hu₃⟩
  · refine .inl ⟨by simp [hblank, ht, hl], g₃, .hierarchy v, ?_⟩
    simp [hg, populate, hg₃]
  · refine .inr ⟨t₃, g₃.modify child fun n =>
      { n with
        methods := u.decl.methods (g₂.node child).name
        constructors := u.decl.constructors (g₂.node child).name }, child, by simp [hblank, ht, hl], ?_, ?_⟩
    · simp [hg, populate, hg₃]
    · refine h₃.modify hc₃ (fun v => ?_) rfl (fun r => ?_) rfl rfl hu₃.declared hu₃.declared
      · constructor
        · exact fun hv => ⟨hv.declared, hv.name, hv.identifier, hv.package, hv.imports⟩
        · exact fun hv => ⟨hv.declared, hv.name, hv.identifier, hv.package, hv.imports⟩
      · cases r <;> rfl

theorem Agrees.declareAll : ∀ (us : List CompilationUnit) {t : Roster} {g : Graph}, g.Agrees t →
    (t.run? us = none ∧ ∃ g' e, g.declareAll us = (g', .error e)) ∨
    ∃ t' g', t.run? us = some t' ∧ g.declareAll us = (g', .ok ()) ∧ g'.Agrees t'
  | [], t, g, h => .inr ⟨t, g, rfl, rfl, h⟩
  | u :: us, t, g, h => by
    rw [Roster.run?, Graph.declareAll]
    rcases h.declare u with ⟨ht, g', e, hg⟩ | ⟨t', g', id, ht, hg, h'⟩
    · exact .inl ⟨by simp [ht], g', e, by simp [hg]⟩
    · simpa [ht, hg] using declareAll us h'

/-- Units that can be declared have a roster, which agrees with their graph. -/
theorem exists_run_of_declareAll {us : List CompilationUnit} {g : Graph}
    (h : empty.declareAll us = (g, .ok ())) : ∃ t, Roster.run? [] us = some t ∧ g.Agrees t := by
  rcases agrees_empty.declareAll us with ⟨-, g', e, herr⟩ | ⟨t, g', hrun, hok, hagrees⟩
  · cases h.symm.trans herr
  · obtain rfl : g = g' := (Prod.mk.inj (h.symm.trans hok)).1
    exact ⟨t, hrun, hagrees⟩

end Graph
end ClassCompiler
