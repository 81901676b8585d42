import ClassCompiler.Proofs.Hierarchy.Sound

/-!
# Declared types

The types that are declared in a graph are those of the units that were
entered, each with the data of its unit and with one edge for each parent that
the unit names. A declaration adds its own type and placeholders, and leaves
every other declared type as it was but for the placeholders among its parents.

Key definitions: `CompilationUnit.Describes`, `Graph.Continues`, `Graph.Represents`.

Key theorems: `Graph.declare_ok`, `Graph.declareAll_represents`,
`Graph.declareAll_invariant`.
-/

namespace ClassCompiler

theorem TypeNode.isPlaceholder_of_isClass {n : TypeNode} (h : n.isClass = true) :
    n.isPlaceholder = false := by
  rw [isPlaceholder, beq_iff_eq.mp h]
  rfl

theorem TypeNode.isPlaceholder_of_isInterface {n : TypeNode} (h : n.isInterface = true) :
    n.isPlaceholder = false := by
  rw [isPlaceholder, beq_iff_eq.mp h]
  rfl

/-- The names of the parents of one kind, in order. -/
def TypeDecl.named (r : Relation) (d : TypeDecl) : List String :=
  (d.parents.filter (·.1 = r)).map (·.2)

/-- The type that a unit declares, without its edges. -/
def CompilationUnit.bareNode (u : CompilationUnit) : TypeNode :=
  { TypeNode.placeholder u.qualifiedName with
    identifier := u.decl.name
    package := u.packageName
    imports := u.imports
    modifiers := Modifier.setOf u.decl.modifiers
    kind := some u.decl.kind
    methods := u.decl.methods u.qualifiedName
    constructors := u.decl.constructors u.qualifiedName }

/-- A type that has the data of a unit, and an edge for each parent it names. -/
structure CompilationUnit.Describes (u : CompilationUnit) (n : TypeNode) : Prop where
  bare : n.bare = u.bareNode
  edges : ∀ r, (n.related r).length = (u.decl.named r).length

theorem TypeDecl.length_named_extending {d : TypeDecl} (h : d.kind = .ofClass) :
    (d.named .extending).length ≤ 1 := by
  cases d with
  | ofClass c =>
    rcases hs : c.superclass with _ | t <;>
      simp [named, parents, hs, List.filter_map, Function.comp_def]
  | ofInterface i => cases h

theorem TypeDecl.named_implementing {d : TypeDecl} (h : d.kind = .ofInterface) :
    d.named .implementing = [] := by
  cases d with
  | ofClass c => cases h
  | ofInterface i => simp [named, parents, List.filter_map, Function.comp_def]

namespace CompilationUnit.Describes

variable {u : CompilationUnit} {n : TypeNode} (h : u.Describes n)
include h

theorem name : n.name = u.qualifiedName := congrArg (·.name) h.bare

theorem kind : n.kind = some u.decl.kind := congrArg (·.kind) h.bare

theorem isPlaceholder : n.isPlaceholder = false := by
  rw [TypeNode.isPlaceholder, h.kind]
  rfl

/-- A class has one superclass at most. -/
theorem length_extended (hn : n.isClass = true) : n.extended.length ≤ 1 := by
  rw [TypeNode.isClass, h.kind, beq_iff_eq, Option.some.injEq] at hn
  exact h.edges .extending ▸ TypeDecl.length_named_extending hn

/-- An interface implements nothing. -/
theorem implemented_eq (hn : n.isInterface = true) : n.implemented = [] := by
  rw [TypeNode.isInterface, h.kind, beq_iff_eq, Option.some.injEq] at hn
  have := h.edges .implementing
  rw [TypeDecl.named_implementing hn] at this
  exact List.eq_nil_of_length_eq_zero this

end CompilationUnit.Describes

namespace Graph

variable {g g₁ g' : Graph} {child : Nat} {us : List CompilationUnit}

/-- What a declaration of the type `child` leaves of the other types: those
that are declared stay live with their data and as many edges as before, and
new ones are placeholders. -/
structure Continues (g : Graph) (child : Nat) (g' : Graph) : Prop where
  length : g.nodes.length ≤ g'.nodes.length
  live : ∀ {id}, id ∈ g.ids → id ≠ child → (g.node id).isPlaceholder = false → id ∈ g'.ids
  added : ∀ {id}, id ∈ g'.ids → id ≠ child → id ∈ g.ids ∨ (g'.node id).isPlaceholder = true
  bare : ∀ {id}, id < g.nodes.length → id ≠ child → (g'.node id).bare = (g.node id).bare
  edges : ∀ {id} (r : Relation), id < g.nodes.length → id ≠ child →
    ((g'.node id).related r).length = ((g.node id).related r).length

namespace Continues

theorem refl (g : Graph) (child : Nat) : g.Continues child g :=
  ⟨Nat.le_refl _, fun h _ _ => h, fun h _ => .inl h, fun _ _ => rfl, fun _ _ _ => rfl⟩

theorem trans (h : g.Continues child g₁) (h' : g₁.Continues child g') : g.Continues child g' where
  length := Nat.le_trans h.length h'.length
  live := by
    intro id hid hne hd
    refine h'.live (h.live hid hne hd) hne ?_
    rw [TypeNode.isPlaceholder_eq (h.bare (mem_ids.mp hid).1 hne), hd]
  added := by
    intro id hid hne
    rcases h'.added hid hne with hid₁ | hph
    · refine (h.added hid₁ hne).imp_right fun hph => ?_
      rw [TypeNode.isPlaceholder_eq (h'.bare (mem_ids.mp hid₁).1 hne), hph]
    · exact .inr hph
  bare := fun hlt hne =>
    (h'.bare (Nat.lt_of_lt_of_le hlt h.length) hne).trans (h.bare hlt hne)
  edges := fun r hlt hne =>
    (h'.edges r (Nat.lt_of_lt_of_le hlt h.length) hne).trans (h.edges r hlt hne)

/-- A change of the type `child` itself. -/
theorem modify {f : TypeNode → TypeNode} (hc : child < g.nodes.length)
    (hf : (f (g.node child)).isLive = (g.node child).isLive) :
    g.Continues child (g.modify child f) := by
  have hnode : ∀ id ≠ child, (g.modify child f).node id = g.node id := by
    intro id hne
    rw [node_modify _ _ _ _ hc, if_neg hne]
  refine ⟨Nat.le_of_eq (length_modify ..).symm, fun hid _ _ => (mem_ids_modify hc hf).mpr hid,
    fun hid _ => .inl ((mem_ids_modify hc hf).mp hid), ?_, ?_⟩
  · intro id _ hne
    rw [hnode id hne]
  · intro id r _ hne
    rw [hnode id hne]

theorem fetches {p : Graph × TypeId} (h : g.Fetches p) : g.Continues child p.1 := by
  cases h with
  | found _ => exact refl g child
  | @added name _ =>
    have hnode : ∀ id < g.nodes.length, (g.addPlaceholder name).node id = g.node id := by
      intro id hlt
      rw [node_addPlaceholder, if_neg (Nat.ne_of_lt hlt)]
    refine ⟨?_, fun hid _ _ => mem_ids_addPlaceholder.mpr (.inl hid), ?_, ?_, ?_⟩
    · simp
    · intro id hid _
      refine (mem_ids_addPlaceholder.mp hid).imp_right fun he => ?_
      rw [node_addPlaceholder, if_pos he]
      rfl
    · intro id hlt _
      rw [hnode id hlt]
    · intro id r hlt _
      rw [hnode id hlt]

theorem connect {parent : Nat} {r : Relation} (hc : child < g.nodes.length)
    (hp : parent < g.nodes.length) : g.Continues child (g.connect child parent r) := by
  refine ⟨Nat.le_of_eq (length_connect ..).symm, fun hid _ _ => (mem_ids_connect hc hp _).mpr hid,
    fun hid _ => .inl ((mem_ids_connect hc hp _).mp hid), fun _ _ => bare_connect hc hp _, ?_⟩
  intro id r' _ hne
  rw [related_connect hc hp, if_neg fun he => hne he.1, List.append_nil]

theorem folded {old : Nat} (hold : (g.node old).isPlaceholder = true) (h : g.Folded old child g')
    (hp : (g.node child).parents = []) : g.Continues child g' := by
  refine ⟨Nat.le_of_eq h.length.symm, ?_, fun hid _ => .inl (h.mem_ids.mp hid).1,
    fun _ _ => h.bare _, ?_⟩
  · intro id hid _ hd
    refine h.mem_ids.mpr ⟨hid, ?_⟩
    rintro rfl
    rw [hold] at hd
    cases hd
  · intro id r _ _
    by_cases hio : id = old
    · rw [h.node, if_pos hio, hio]
      cases r <;> rfl
    · rw [h.related r hio hp]
      split
      · exact List.length_map _
      · rfl

end Continues

/-- The type `child` is being declared and has the parents that `ps` names. -/
structure Building (g : Graph) (child : Nat) (ps : List (Relation × String)) : Prop where
  sound : g.Sound
  used : g.Used
  mem : child ∈ g.ids
  declared : (g.node child).isPlaceholder = false
  edges : ∀ r, ((g.node child).related r).length = (ps.filter (·.1 = r)).length

namespace Building

variable {ps : List (Relation × String)}

theorem link (h : g.Building child ps) {r : Relation} {name : String}
    (hl : g.link child r name = .ok g') :
    g'.Building child (ps ++ [(r, name)]) ∧ g.Continues child g' ∧
      (g'.node child).bare = (g.node child).bare := by
  obtain ⟨g₁, parent, hresolve, hnew, rfl⟩ := link_ok hl
  have hf : g.Fetches (g₁, parent) := hresolve ▸ g.fetches_resolve child name
  obtain ⟨hsound, hparent⟩ := hf.sound h.sound
  have hmem := hf.mem_ids h.mem
  have hnode := hf.node (mem_ids.mp h.mem).1
  have hclt := (mem_ids.mp hmem).1
  have hplt := (mem_ids.mp hparent).1
  have hd : (g₁.node child).isPlaceholder = false := hnode ▸ h.declared
  refine ⟨⟨hsound.connect hmem hparent hd hnew r, ?_, (mem_ids_connect hclt hplt _).mpr hmem, ?_, ?_⟩,
    (Continues.fetches hf).trans (.connect hclt hplt), ?_⟩
  · intro id hid hp
    rw [children_connect hclt hplt]
    by_cases he : id = parent
    · simp [he]
    · rw [if_neg he, List.append_nil]
      rw [TypeNode.isPlaceholder_eq (bare_connect hclt hplt id)] at hp
      exact hf.used h.used ((mem_ids_connect hclt hplt _).mp hid) hp he
  · rw [TypeNode.isPlaceholder_eq (bare_connect hclt hplt child), hd]
  · intro r'
    rw [related_connect hclt hplt, hnode, List.length_append, h.edges r', List.filter_append,
      List.length_append]
    by_cases hr : r' = r
    · simp [hr]
    · simp [hr, Ne.symm hr]
  · rw [bare_connect hclt hplt, hnode]

theorem linkAll : ∀ {rest ps : List (Relation × String)} {g g' : Graph}, g.Building child ps →
    g.linkAll child rest = (g', .ok ()) →
    g'.Building child (ps ++ rest) ∧ g.Continues child g' ∧
      (g'.node child).bare = (g.node child).bare
  | [], ps, g, g', h, hl => by
    obtain rfl := (Prod.mk.inj hl).1
    rw [List.append_nil]
    exact ⟨h, .refl g child, rfl⟩
  | (r, name) :: rest, ps, g, g', h, hl => by
    rw [Graph.linkAll] at hl
    split at hl
    · cases (Prod.mk.inj hl).2
    · rename_i g₁ h₁
      obtain ⟨hb, hc, hbare⟩ := h.link h₁
      obtain ⟨hb', hc', hbare'⟩ := linkAll hb hl
      rw [List.append_assoc] at hb'
      exact ⟨hb', hc.trans hc', hbare'.trans hbare⟩

theorem parents_nil (h : g.Building child []) : (g.node child).parents = [] := by
  have hext := h.edges .extending
  have himp := h.edges .implementing
  simp only [List.filter_nil, List.length_nil, List.length_eq_zero_iff, TypeNode.related] at hext himp
  rw [TypeNode.parents, hext, himp]
  rfl

theorem fold (h : g.Building child []) (hf : g.fold child = (g', .ok ())) :
    g'.Building child [] ∧ g.Continues child g' ∧ (g'.node child).bare = (g.node child).bare := by
  rcases hs : g.standIn? child with _ | old
  · simp only [Graph.fold, hs] at hf
    obtain rfl := (Prod.mk.inj hf).1
    exact ⟨h, .refl g child, rfl⟩
  · have hp := h.parents_nil
    obtain ⟨-, -, hph, -, -⟩ := standIn?_eq_some.mp hs
    have hfoldable := h.sound.foldable h.mem h.declared hp hs
    obtain ⟨hparents, hfolded⟩ := fold_ok hs hfoldable hf
    refine ⟨⟨h.sound.folded h.mem h.declared hp hs hparents hfolded, ?_,
      hfolded.mem_ids.mpr ⟨h.mem, hfoldable.ne.symm⟩, ?_, ?_⟩, .folded hph hfolded hp, hfolded.bare child⟩
    · intro id hid hph'
      obtain ⟨hid, hne⟩ := hfolded.mem_ids.mp hid
      rw [TypeNode.isPlaceholder_eq (hfolded.bare id)] at hph'
      rw [hfolded.children hne]
      exact fun he => h.used hid hph' (List.append_eq_nil_iff.mp he).1
    · rw [TypeNode.isPlaceholder_eq (hfolded.bare child), h.declared]
    · intro r
      rw [hfolded.related r hfoldable.ne.symm hp, if_neg hfoldable.new_notMem]
      exact h.edges r

end Building

/-- The stages of a declaration that succeeds. -/
theorem declare_stages {u : CompilationUnit} {id : Nat} (h : g.declare u = (g', .ok id)) :
    ∃ g₁ g₂ g₃, g.fetch u.qualifiedName = (g₁, id) ∧ (g₁.node id).isPlaceholder = true ∧
      (g₁.modify id (describe u)).fold id = (g₂, .ok ()) ∧
      g₂.linkAll id u.decl.parents = (g₃, .ok ()) ∧
      g' = g₃.modify id fun n =>
        { n with
          methods := u.decl.methods (g₂.node id).name
          constructors := u.decl.constructors (g₂.node id).name } := by
  rw [declare] at h
  split at h
  · cases (Prod.mk.inj h).2
  rcases hfetch : g.fetch u.qualifiedName with ⟨g₁, id₁⟩
  simp only [hfetch] at h
  split at h
  · cases (Prod.mk.inj h).2
  rename_i hph
  split at h
  · cases (Prod.mk.inj h).2
  rename_i g₂ hfold
  rw [populate] at h
  split at h
  · cases (Prod.mk.inj h).2
  rename_i g₃' g₄ hpop
  obtain ⟨rfl, hid⟩ := Prod.mk.inj h
  cases hid
  split at hpop
  · cases (Prod.mk.inj hpop).2
  rename_i g₃ hlink
  exact ⟨g₁, g₂, g₃, rfl, by simpa using hph, hfold, hlink, (Prod.mk.inj hpop).1.symm⟩

/-- What a declaration that succeeds does to a graph. -/
structure Declares (g : Graph) (u : CompilationUnit) (id : Nat) (g' : Graph) : Prop where
  sound : g'.Sound
  used : g'.Used
  continues : g.Continues id g'
  mem : id ∈ g'.ids
  describes : u.Describes (g'.node id)
  fresh : ∀ other ∈ g.ids, (g.node other).isPlaceholder = false →
    (g.node other).name ≠ u.qualifiedName ∧ other ≠ id

/-- The type under declaration, as soon as it is no longer a placeholder. -/
theorem building_describe (hg : g.Sound) (hu : g.Used) {u : CompilationUnit}
    (hfetch : g.fetch u.qualifiedName = (g₁, child)) (hph : (g₁.node child).isPlaceholder = true) :
    (g₁.modify child (describe u)).Building child [] := by
  have hf : g.Fetches (g₁, child) := hfetch ▸ g.fetches_fetch _
  obtain ⟨hsound, hmem⟩ := hf.sound hg
  have hlt := (mem_ids.mp hmem).1
  obtain ⟨hparents, -⟩ := hsound.placeholder hmem hph
  have hnode := fun id => node_modify g₁ child id (describe u) hlt
  refine ⟨hsound.modify hmem rfl rfl rfl rfl rfl, ?_, (mem_ids_modify hlt (by rfl)).mpr hmem, ?_, ?_⟩
  · intro id hid hp
    rw [hnode] at hp ⊢
    split at hp
    · cases hp
    · rename_i hne
      rw [if_neg hne]
      exact hf.used hu ((mem_ids_modify hlt (by rfl)).mp hid) hp hne
  · rw [hnode, if_pos rfl]
    rfl
  · intro r
    obtain ⟨hext, himp⟩ := List.append_eq_nil_iff.mp hparents
    rw [hnode, if_pos rfl]
    cases r with
    | extending => exact congrArg List.length hext
    | implementing => exact congrArg List.length himp

theorem declare_ok (hg : g.Sound) (hu : g.Used) {u : CompilationUnit} {id : Nat}
    (h : g.declare u = (g', .ok id)) : g.Declares u id g' := by
  obtain ⟨g₁, g₂, g₃, hfetch, hph, hfold, hlink, rfl⟩ := declare_stages h
  have hf : g.Fetches (g₁, id) := hfetch ▸ g.fetches_fetch _
  obtain ⟨hsound, hmem⟩ := hf.sound hg
  have hname : (g₁.node id).name = u.qualifiedName := by
    have := find?_fetch g u.qualifiedName
    rw [hfetch] at this
    exact (hsound.index.mp this).2
  have hlt := (mem_ids.mp hmem).1
  obtain ⟨hb₂, hc₂, hbare₂⟩ := (building_describe hg hu hfetch hph).fold hfold
  obtain ⟨hb₃, hc₃, hbare₃⟩ := hb₂.linkAll hlink
  have hlt₃ := (mem_ids.mp hb₃.mem).1
  have hown : (g₂.node id).name = u.qualifiedName := by
    rw [TypeNode.name_eq hbare₂, node_modify _ _ _ _ hlt, if_pos rfl]
    exact hname
  rw [hown]
  have hnode := fun other => node_modify g₃ id other (fun n =>
    { n with
      methods := u.decl.methods u.qualifiedName
      constructors := u.decl.constructors u.qualifiedName }) hlt₃
  refine ⟨?_, ?_, ?_, (mem_ids_modify hlt₃ (by rfl)).mpr hb₃.mem, ⟨?_, ?_⟩, ?_⟩
  · exact hb₃.sound.modify hb₃.mem rfl rfl rfl rfl hb₃.declared
  · intro other hid hp
    rw [hnode] at hp ⊢
    split at hp
    · cases hb₃.declared.symm.trans hp
    · rename_i hne
      rw [if_neg hne]
      exact hb₃.used ((mem_ids_modify hlt₃ (by rfl)).mp hid) hp
  · exact (((Continues.fetches hf).trans (.modify hlt (by rfl))).trans hc₂).trans
      (hc₃.trans (.modify hlt₃ (by rfl)))
  · have hbare := hbare₃.trans hbare₂
    rw [node_modify _ _ _ _ hlt, if_pos rfl] at hbare
    rw [hnode, if_pos rfl]
    simp only [TypeNode.bare, describe, TypeNode.mk.injEq] at hbare
    simp only [TypeNode.bare, CompilationUnit.bareNode, TypeNode.placeholder, TypeNode.mk.injEq]
    simp_all
  · intro r
    rw [hnode, if_pos rfl, TypeDecl.named, List.length_map]
    exact hb₃.edges r
  · intro other ho hd
    have hne : other ≠ id := by
      rintro rfl
      rw [hf.node (mem_ids.mp ho).1, hd] at hph
      cases hph
    refine ⟨fun he => hne ?_, hne⟩
    refine hsound.name_inj (hf.mem_ids ho) hmem ?_
    rw [hf.node (mem_ids.mp ho).1, he, hname]

/-! ### Whole programs -/

/-- The declared types of a graph are those of some units. -/
structure Represents (g : Graph) (us : List CompilationUnit) : Prop where
  sound : g.Sound
  used : g.Used
  distinct : (us.map (·.qualifiedName)).Nodup
  entered : ∀ u ∈ us, ∃ id ∈ g.ids, u.Describes (g.node id)
  declared : ∀ id ∈ g.ids, (g.node id).isPlaceholder = false → ∃ u ∈ us, u.Describes (g.node id)

theorem represents_empty : empty.Represents [] :=
  have hids : ∀ id, id ∉ empty.ids := fun id h => absurd (mem_ids.mp h).1 (Nat.not_lt_zero id)
  ⟨sound_empty, fun h => absurd h (hids _), .nil, nofun, fun id h => absurd h (hids id)⟩

namespace Represents

theorem declare (h : g.Represents us) {u : CompilationUnit} {id : Nat}
    (hd : g.declare u = (g', .ok id)) : g'.Represents (us ++ [u]) := by
  obtain ⟨hsound, hused, hcont, hmem, hdesc, hfresh⟩ := declare_ok h.sound h.used hd
  have hkept : ∀ {other : Nat} {v : CompilationUnit}, other < g.nodes.length → other ≠ id →
      (v.Describes (g'.node other) ↔ v.Describes (g.node other)) := by
    intro other v hlt hne
    constructor
    · exact fun hv => ⟨(hcont.bare hlt hne).symm.trans hv.bare,
        fun r => (hcont.edges r hlt hne).symm.trans (hv.edges r)⟩
    · exact fun hv => ⟨(hcont.bare hlt hne).trans hv.bare,
        fun r => (hcont.edges r hlt hne).trans (hv.edges r)⟩
  refine ⟨hsound, hused, ?_, ?_, ?_⟩
  · rw [List.map_append, List.nodup_append]
    refine ⟨h.distinct, List.nodup_singleton _, ?_⟩
    intro name hname name' hname' he
    obtain ⟨v, hv, rfl⟩ := List.mem_map.mp hname
    obtain ⟨other, ho, hdesc'⟩ := h.entered v hv
    refine (hfresh other ho hdesc'.isPlaceholder).1 ?_
    rw [hdesc'.name, he, List.mem_singleton.mp hname']
  · intro v hv
    rcases List.mem_append.mp hv with hv | hv
    · obtain ⟨other, ho, hdesc'⟩ := h.entered v hv
      have hne := (hfresh other ho hdesc'.isPlaceholder).2
      exact ⟨other, hcont.live ho hne hdesc'.isPlaceholder, (hkept (mem_ids.mp ho).1 hne).mpr hdesc'⟩
    · rw [List.mem_singleton.mp hv]
      exact ⟨id, hmem, hdesc⟩
  · intro other ho hdecl
    by_cases hne : other = id
    · exact ⟨u, by simp, hne ▸ hdesc⟩
    · rcases hcont.added ho hne with ho' | hph
      · have hlt := (mem_ids.mp ho').1
        rw [TypeNode.isPlaceholder_eq (hcont.bare hlt hne)] at hdecl
        obtain ⟨v, hv, hdesc'⟩ := h.declared other ho' hdecl
        exact ⟨v, List.mem_append_left _ hv, (hkept hlt hne).mpr hdesc'⟩
      · rw [hdecl] at hph
        cases hph

theorem declareAll : ∀ {vs us : List CompilationUnit} {g g' : Graph}, g.Represents us →
    g.declareAll vs = (g', .ok ()) → g'.Represents (us ++ vs)
  | [], us, g, g', h, hd => by
    obtain rfl := (Prod.mk.inj hd).1
    rwa [List.append_nil]
  | v :: vs, us, g, g', h, hd => by
    rw [Graph.declareAll] at hd
    split at hd
    · cases (Prod.mk.inj hd).2
    · rename_i g₁ id h₁
      have := declareAll (h.declare h₁) hd
      rwa [List.append_assoc] at this

/-- The names of the declared types. -/
theorem names_perm (h : g.Represents us) :
    ((g.ids.filter fun id => !(g.node id).isPlaceholder).map fun id => (g.node id).name).Perm
      (us.map (·.qualifiedName)) := by
  have hnodup : (g.ids.map fun id => (g.node id).name).Nodup :=
    (List.nodup_range.filter _).map_on fun id hid id' hid' => h.sound.name_inj hid hid'
  rw [List.perm_ext_iff_of_nodup (hnodup.sublist (List.filter_sublist.map _)) h.distinct]
  intro name
  simp only [List.mem_map, List.mem_filter, Bool.not_eq_true']
  constructor
  · rintro ⟨id, ⟨hid, hd⟩, rfl⟩
    obtain ⟨u, hu, hdesc⟩ := h.declared id hid hd
    exact ⟨u, hu, hdesc.name.symm⟩
  · rintro ⟨u, hu, rfl⟩
    obtain ⟨id, hid, hdesc⟩ := h.entered u hu
    exact ⟨id, ⟨hid, hdesc.isPlaceholder⟩, hdesc.name⟩

end Represents

theorem declareAll_represents (h : empty.declareAll us = (g, .ok ())) : g.Represents us :=
  represents_empty.declareAll h

/-- However types are declared, with names of any form and in any order, the
graph stays in step with itself and with the units. -/
theorem declareAll_invariant (us : List CompilationUnit) (g : Graph)
    (h : empty.declareAll us = (g, .ok ())) :
    ((∀ name id, g.find? name = some id ↔ id ∈ g.ids ∧ (g.node id).name = name) ∧
      (g.ids.map fun id => (g.node id).name).Nodup) ∧
    (∀ p ∈ g.ids, ∀ c ∈ g.ids, (g.node c).parents.count p ≤ 1 ∧
      (g.node p).children.count c = (g.node c).parents.count p) ∧
    ((∀ id ∈ g.ids, ∀ other ∈ (g.node id).parents ++ (g.node id).children, other ∈ g.ids) ∧
      ∀ id, (g.node id).isLive = false → (g.node id).children = []) ∧
    (∀ id ∈ g.placeholders,
      (g.node id).parents = [] ∧ (g.node id).methods = [] ∧ (g.node id).children ≠ []) ∧
    ((g.ids.filter fun id => !(g.node id).isPlaceholder).map fun id => (g.node id).name).Perm
      (us.map (·.qualifiedName)) ∧
    (us.map (·.qualifiedName)).Nodup ∧
    ∀ id ∈ g.ids, ((g.node id).isClass = true → (g.node id).extended.length ≤ 1) ∧
      ((g.node id).isInterface = true → (g.node id).implemented = []) := by
  have hr := declareAll_represents h
  have hs := hr.sound
  refine ⟨⟨fun _ _ => hs.index, ?_⟩, ?_, ⟨?_, ?_⟩, ?_, hr.names_perm, hr.distinct, ?_⟩
  · exact (List.nodup_range.filter _).map_on fun id hid id' hid' => hs.name_inj hid hid'
  · exact fun p hp c hc =>
      ⟨List.nodup_iff_count_le_one.mp (hs.nodup hc) p, hs.symmetric hp hc⟩
  · intro id hid other ho
    exact (List.mem_append.mp ho).elim (hs.parent_mem hid) (hs.child_mem hid)
  · intro id hlive
    refine hs.retired fun hid => ?_
    cases hlive.symm.trans (mem_ids.mp hid).2
  · intro id hid
    obtain ⟨hid, hph⟩ := List.mem_filter.mp hid
    obtain ⟨hparents, hmethods⟩ := hs.placeholder hid hph
    exact ⟨hparents, hmethods, hr.used hid hph⟩
  · intro id hid
    refine ⟨fun hc => ?_, fun hi => ?_⟩
    · obtain ⟨u, -, hdesc⟩ := hr.declared id hid (TypeNode.isPlaceholder_of_isClass hc)
      exact hdesc.length_extended hc
    · obtain ⟨u, -, hdesc⟩ := hr.declared id hid (TypeNode.isPlaceholder_of_isInterface hi)
      exact hdesc.implemented_eq hi

end Graph

/-- A class of a package with no members. -/
def CompilationUnit.plainClass (package name : String) (parent : Option String) : CompilationUnit :=
  (of (.ofClass ⟨[], name, parent.map (⟨·, false, .zero⟩), [], [], .zero⟩)).withPackage package

/-- Two classes that name a third of their package before it is declared. -/
def forwardUnits : List CompilationUnit :=
  [.plainClass "p" "A" (some "C"), .plainClass "p" "B" (some "C"), .plainClass "p" "C" none]

/-- The placeholder that both share is folded into the third class. -/
theorem forwardUnits_invariant :
    let g := (Graph.empty.declareAll forwardUnits).1
    Graph.empty.declareAll forwardUnits = (g, .ok ()) ∧ g.find? "C" = none ∧
      (∀ name id, g.find? name = some id ↔ id ∈ g.ids ∧ (g.node id).name = name) ∧
      ((g.ids.filter fun id => !(g.node id).isPlaceholder).map fun id => (g.node id).name).Perm
        ["p.A", "p.B", "p.C"] := by
  obtain ⟨⟨hindex, -⟩, -, -, -, hperm, -⟩ := Graph.declareAll_invariant forwardUnits _ rfl
  exact ⟨rfl, by decide, hindex, hperm⟩

end ClassCompiler
