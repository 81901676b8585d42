import ClassCompiler.Proofs.Hierarchy.Updates

/-!
# Sound graphs

The graph that declarations build never gets out of step with itself: the
index finds exactly the live types, edges run both ways and are entered once,
no live type has an edge to a retired one, and a placeholder is there only
because some type names it as a parent. Folding a placeholder rewrites the
edges of all its children at once; it is sound because they are exactly the
types that have the placeholder as a parent.

Key definitions: `Graph.Sound`, `Graph.Used`.

Key theorems: `Graph.Sound.addPlaceholder`, `Graph.Sound.connect`, `Graph.Sound.folded`.
-/

namespace ClassCompiler
namespace Graph

variable {g g' : Graph}

/-- Index and edges agree with the types. -/
structure Sound (g : Graph) : Prop where
  index : ∀ {name : String} {id : Nat},
    g.find? name = some id ↔ id ∈ g.ids ∧ (g.node id).name = name
  symmetric : ∀ {p c : Nat}, p ∈ g.ids → c ∈ g.ids →
    (g.node p).children.count c = (g.node c).parents.count p
  nodup : ∀ {c : Nat}, c ∈ g.ids → (g.node c).parents.Nodup
  parent_mem : ∀ {c p : Nat}, c ∈ g.ids → p ∈ (g.node c).parents → p ∈ g.ids
  child_mem : ∀ {p c : Nat}, p ∈ g.ids → c ∈ (g.node p).children → c ∈ g.ids
  retired : ∀ {id : Nat}, id ∉ g.ids → (g.node id).children = []
  placeholder : ∀ {id : Nat}, id ∈ g.ids → (g.node id).isPlaceholder = true →
    (g.node id).parents = [] ∧ (g.node id).methods = []

/-- Every live placeholder is a parent of some type. -/
def Used (g : Graph) : Prop :=
  ∀ {id : Nat}, id ∈ g.ids → (g.node id).isPlaceholder = true → (g.node id).children ≠ []

theorem sound_empty : empty.Sound := by
  have hids : ∀ id, id ∉ empty.ids := fun id h => absurd (mem_ids.mp h).1 (Nat.not_lt_zero id)
  exact ⟨⟨nofun, fun h => absurd h.1 (hids _)⟩, fun h => absurd h (hids _), fun h => absurd h (hids _),
    fun h => absurd h (hids _), fun h => absurd h (hids _), fun _ => rfl, fun h => absurd h (hids _)⟩

namespace Sound

theorem find?_name (h : g.Sound) {id : Nat} (hid : id ∈ g.ids) :
    g.find? (g.node id).name = some id :=
  h.index.mpr ⟨hid, rfl⟩

/-- Live types have different names. -/
theorem name_inj (h : g.Sound) {id id' : Nat} (hid : id ∈ g.ids) (hid' : id' ∈ g.ids)
    (hn : (g.node id).name = (g.node id').name) : id = id' :=
  Option.some.inj ((h.find?_name hid).symm.trans (hn ▸ h.find?_name hid'))

theorem mem_children (h : g.Sound) {p c : Nat} (hp : p ∈ g.ids) (hc : c ∈ g.ids) :
    c ∈ (g.node p).children ↔ p ∈ (g.node c).parents := by
  rw [← List.count_pos_iff, ← List.count_pos_iff, h.symmetric hp hc]

/-- Only names, parents, children and what placeholders are matter. -/
theorem of_eq (h : g.Sound) (hids : ∀ id, id ∈ g'.ids ↔ id ∈ g.ids)
    (hfind : ∀ name, g'.find? name = g.find? name) (hname : ∀ id, (g'.node id).name = (g.node id).name)
    (hparents : ∀ id, (g'.node id).parents = (g.node id).parents)
    (hchildren : ∀ id, (g'.node id).children = (g.node id).children)
    (hp : ∀ id ∈ g.ids, (g'.node id).isPlaceholder = true →
      (g.node id).isPlaceholder = true ∧ (g'.node id).methods = (g.node id).methods) : g'.Sound where
  index := by simp only [hfind, hids, hname, h.index, implies_true]
  symmetric := by
    intro p c hp hc
    rw [hparents, hchildren]
    exact h.symmetric ((hids p).mp hp) ((hids c).mp hc)
  nodup := by
    intro c hc
    rw [hparents]
    exact h.nodup ((hids c).mp hc)
  parent_mem := by
    intro c p hc hp
    rw [hparents] at hp
    exact (hids p).mpr (h.parent_mem ((hids c).mp hc) hp)
  child_mem := by
    intro p c hp hc
    rw [hchildren] at hc
    exact (hids c).mpr (h.child_mem ((hids p).mp hp) hc)
  retired := by
    intro id hid
    rw [hchildren]
    exact h.retired (mt (hids id).mpr hid)
  placeholder := by
    intro id hid hph
    obtain ⟨hph', hm⟩ := hp id ((hids id).mp hid) hph
    rw [hparents, hm]
    exact h.placeholder ((hids id).mp hid) hph'

/-- A change of one type that leaves its name and its edges alone. -/
theorem modify (h : g.Sound) {id : Nat} (hid : id ∈ g.ids) {f : TypeNode → TypeNode}
    (hname : (f (g.node id)).name = (g.node id).name)
    (hparents : (f (g.node id)).parents = (g.node id).parents)
    (hchildren : (f (g.node id)).children = (g.node id).children)
    (hlive : (f (g.node id)).isLive = (g.node id).isLive)
    (hdeclared : (f (g.node id)).isPlaceholder = false) : (g.modify id f).Sound := by
  have hlt := (mem_ids.mp hid).1
  have hnode := fun other => node_modify g id other f hlt
  refine h.of_eq (fun _ => mem_ids_modify hlt hlive) (fun _ => rfl) ?_ ?_ ?_ ?_
  all_goals
    intro other
    rw [hnode]
    by_cases ho : other = id
    · simp_all
    · simp_all

theorem length_notMem (g : Graph) : g.nodes.length ∉ g.ids :=
  fun h => Nat.lt_irrefl _ (mem_ids.mp h).1

theorem addPlaceholder (h : g.Sound) {name : String} (hn : g.find? name = none) :
    (g.addPlaceholder name).Sound := by
  have hold : ∀ id ∈ g.ids, (g.addPlaceholder name).node id = g.node id := by
    intro id hid
    rw [node_addPlaceholder, if_neg (Nat.ne_of_lt (mem_ids.mp hid).1)]
  have hnew : (g.addPlaceholder name).node g.nodes.length = .placeholder name := by
    rw [node_addPlaceholder, if_pos rfl]
  have hlen := length_notMem g
  refine ⟨?_, ?_, ?_, ?_, ?_, ?_, ?_⟩
  · intro other id
    rw [find?_addPlaceholder, mem_ids_addPlaceholder]
    by_cases ho : other = name
    · subst ho
      rw [if_pos rfl, Option.some.injEq]
      constructor
      · rintro rfl
        exact ⟨.inr rfl, by rw [hnew]; rfl⟩
      · rintro ⟨hid | rfl, hname⟩
        · rw [hold id hid] at hname
          rw [h.index.mpr ⟨hid, hname⟩] at hn
          cases hn
        · rfl
    · rw [if_neg ho, h.index]
      constructor
      · rintro ⟨hid, hname⟩
        exact ⟨.inl hid, by rw [hold id hid, hname]⟩
      · rintro ⟨hid | rfl, hname⟩
        · exact ⟨hid, by rw [← hold id hid, hname]⟩
        · rw [hnew] at hname
          exact absurd hname.symm ho
  · intro p c hp hc
    rcases mem_ids_addPlaceholder.mp hp with hp | rfl <;>
      rcases mem_ids_addPlaceholder.mp hc with hc | rfl
    · rw [hold p hp, hold c hc]
      exact h.symmetric hp hc
    · rw [hold p hp, hnew, List.count_eq_zero.mpr fun hc => hlen (h.child_mem hp hc)]
      rfl
    · rw [hold c hc, hnew, List.count_eq_zero.mpr fun hp => hlen (h.parent_mem hc hp)]
      rfl
    · rw [hnew]
      rfl
  · intro c hc
    rcases mem_ids_addPlaceholder.mp hc with hc | rfl
    · exact hold c hc ▸ h.nodup hc
    · rw [hnew]
      exact List.nodup_nil
  · intro c p hc hp
    rcases mem_ids_addPlaceholder.mp hc with hc | rfl
    · rw [hold c hc] at hp
      exact mem_ids_addPlaceholder.mpr (.inl (h.parent_mem hc hp))
    · rw [hnew] at hp
      cases hp
  · intro p c hp hc
    rcases mem_ids_addPlaceholder.mp hp with hp | rfl
    · rw [hold p hp] at hc
      exact mem_ids_addPlaceholder.mpr (.inl (h.child_mem hp hc))
    · rw [hnew] at hc
      cases hc
  · intro id hid
    obtain ⟨hid, hne⟩ := not_or.mp (mt mem_ids_addPlaceholder.mpr hid)
    rw [node_addPlaceholder, if_neg hne]
    exact h.retired hid
  · intro id hid hph
    rcases mem_ids_addPlaceholder.mp hid with hid | rfl
    · rw [hold id hid] at hph ⊢
      exact h.placeholder hid hph
    · rw [hnew]
      exact ⟨rfl, rfl⟩

/-- A new edge to a live parent. -/
theorem connect (h : g.Sound) {child parent : Nat} (hc : child ∈ g.ids) (hp : parent ∈ g.ids)
    (hd : (g.node child).isPlaceholder = false) (hn : parent ∉ (g.node child).parents)
    (r : Relation) : (g.connect child parent r).Sound := by
  have hclt := (mem_ids.mp hc).1
  have hplt := (mem_ids.mp hp).1
  have hids := fun id => mem_ids_connect (g := g) (r := r) hclt hplt id
  have hbare := fun id => bare_connect (g := g) (r := r) hclt hplt id
  have hchildren := fun id => children_connect (g := g) (r := r) hclt hplt id
  have hparents := fun id => parents_connect (g := g) (r := r) hclt hplt id
  refine ⟨?_, ?_, ?_, ?_, ?_, ?_, ?_⟩
  · intro name id
    rw [find?_connect, hids, TypeNode.name_eq (hbare id), h.index]
  · intro p c hp' hc'
    have hnew : (if p = parent then [child] else []).count c =
        (if c = child then [parent] else []).count p := by
      grind
    rw [hchildren, (hparents c).count_eq, List.count_append, List.count_append, hnew,
      h.symmetric ((hids p).mp hp') ((hids c).mp hc'), Nat.add_comm]
  · intro c hc'
    rw [(hparents c).nodup_iff]
    by_cases h₁ : c = child
    · subst h₁
      simpa using ⟨hn, h.nodup hc⟩
    · simpa [h₁] using h.nodup ((hids c).mp hc')
  · intro c p hc' hp'
    rw [hids]
    rcases List.mem_append.mp ((hparents c).mem_iff.mp hp') with hp' | hp'
    · split at hp'
      · rw [List.mem_singleton.mp hp']
        exact hp
      · cases hp'
    · exact h.parent_mem ((hids c).mp hc') hp'
  · intro p c hp' hc'
    rw [hids]
    rw [hchildren] at hc'
    rcases List.mem_append.mp hc' with hc' | hc'
    · exact h.child_mem ((hids p).mp hp') hc'
    · split at hc'
      · rw [List.mem_singleton.mp hc']
        exact hc
      · cases hc'
  · intro id hid
    have hid' := mt (hids id).mpr hid
    have hne : id ≠ parent := fun he => hid' (he ▸ hp)
    rw [hchildren, h.retired hid', if_neg hne]
    rfl
  · intro id hid hph
    have hid' := (hids id).mp hid
    rw [TypeNode.isPlaceholder_eq (hbare id)] at hph
    have hne : id ≠ child := fun he => by simp [he, hd] at hph
    obtain ⟨hparents', hmethods⟩ := h.placeholder hid' hph
    rw [TypeNode.methods_eq (hbare id)]
    refine ⟨List.perm_nil.mp ?_, hmethods⟩
    simpa [hne, hparents'] using hparents id

section fold
variable {old new : Nat} (h : g.Sound) (hnew : new ∈ g.ids)
  (hd : (g.node new).isPlaceholder = false) (hp : (g.node new).parents = [])
  (hs : g.standIn? new = some old)
include h hnew hd hp hs

theorem foldable : g.Foldable old new := by
  obtain ⟨-, hfind, hph, -, -⟩ := standIn?_eq_some.mp hs
  obtain ⟨hold, -⟩ := h.index.mp hfind
  have hparents := (h.placeholder hold hph).1
  have hcount : ∀ c ∈ (g.node old).children, old ∈ (g.node c).parents :=
    fun c hc => (h.mem_children hold (h.child_mem hold hc)).mp hc
  refine ⟨(mem_ids.mp hold).1, (mem_ids.mp hnew).1, ?_, ?_, ?_, ?_, ?_⟩
  · rintro rfl
    rw [hph] at hd
    cases hd
  · exact fun c hc => (mem_ids.mp (h.child_mem hold hc)).1
  · rw [List.nodup_iff_count_le_one]
    intro c
    by_cases hc : c ∈ (g.node old).children
    · rw [h.symmetric hold (h.child_mem hold hc)]
      exact List.nodup_iff_count_le_one.mp (h.nodup (h.child_mem hold hc)) old
    · rw [List.count_eq_zero.mpr hc]
      omega
  · intro hc
    have := hcount old hc
    simp [hparents] at this
  · intro hc
    have := hcount new hc
    simp [hp] at this

/-- A fold keeps the graph sound. -/
theorem folded (hparents : ∀ c ∈ (g.node old).children, new ∉ (g.node c).parents)
    (hf : g.Folded old new g') : g'.Sound := by
  obtain ⟨-, hfind, hph, -, -⟩ := standIn?_eq_some.mp hs
  obtain ⟨hold, -⟩ := h.index.mp hfind
  have hfoldable := h.foldable hnew hd hp hs
  have hnone := (h.placeholder hold hph).1
  -- exactly the children of the placeholder have it as a parent
  have hchild : ∀ {c}, c ∈ g.ids → (c ∈ (g.node old).children ↔ old ∈ (g.node c).parents) :=
    fun hc => h.mem_children hold hc
  refine ⟨?_, ?_, ?_, ?_, ?_, ?_, ?_⟩
  · intro name id
    rw [hf.find?, hf.mem_ids, TypeNode.name_eq (hf.bare id)]
    by_cases hn : name = (g.node old).name
    · rw [if_pos hn]
      refine ⟨nofun, ?_⟩
      rintro ⟨⟨hid, hne⟩, hname⟩
      exact absurd (h.name_inj hid hold (hname.trans hn)) hne
    · rw [if_neg hn, h.index]
      constructor
      · rintro ⟨hid, hname⟩
        refine ⟨⟨hid, ?_⟩, hname⟩
        rintro rfl
        exact hn hname.symm
      · rintro ⟨⟨hid, -⟩, hname⟩
        exact ⟨hid, hname⟩
  · intro p c hp' hc'
    obtain ⟨hp', hpo⟩ := hf.mem_ids.mp hp'
    obtain ⟨hc', hco⟩ := hf.mem_ids.mp hc'
    rw [hf.children hpo, hf.parents hco hp, List.count_append, h.symmetric hp' hc']
    by_cases hc : c ∈ (g.node old).children
    · rw [if_pos hc, count_redirect p hpo]
      by_cases hpn : p = new
      · rw [if_pos hpn, if_pos hpn, h.symmetric hold hc']
      · rw [if_neg hpn, if_neg hpn, List.count_nil]
    · have hzero : (if p = new then (g.node old).children else []).count c = 0 := by
        split
        · exact List.count_eq_zero.mpr hc
        · rfl
      rw [if_neg hc, hzero, Nat.add_zero]
  · intro c hc'
    obtain ⟨hc', hco⟩ := hf.mem_ids.mp hc'
    rw [hf.parents hco hp]
    split
    · exact nodup_redirect (h.nodup hc') (hparents c ‹_›)
    · exact h.nodup hc'
  · intro c p hc' hp'
    obtain ⟨hc', hco⟩ := hf.mem_ids.mp hc'
    rw [hf.parents hco hp] at hp'
    rw [hf.mem_ids]
    split at hp'
    · obtain ⟨q, hq, rfl⟩ := List.mem_map.mp hp'
      split
      · exact ⟨hnew, hfoldable.ne.symm⟩
      · exact ⟨h.parent_mem hc' hq, ‹_›⟩
    · refine ⟨h.parent_mem hc' hp', ?_⟩
      rintro rfl
      exact absurd ((hchild hc').mpr hp') ‹_›
  · intro p c hp' hc'
    obtain ⟨hp', hpo⟩ := hf.mem_ids.mp hp'
    rw [hf.children hpo] at hc'
    rw [hf.mem_ids]
    rcases List.mem_append.mp hc' with hc₁ | hc₁
    · refine ⟨h.child_mem hp' hc₁, ?_⟩
      rintro rfl
      have := (h.mem_children hp' hold).mp hc₁
      simp [hnone] at this
    · split at hc₁
      · refine ⟨h.child_mem hold hc₁, ?_⟩
        rintro rfl
        exact hfoldable.old_notMem hc₁
      · cases hc₁
  · intro id hid
    by_cases hio : id = old
    · rw [hf.node, if_pos hio]
    · have hid' : id ∉ g.ids := fun h' => hid (hf.mem_ids.mpr ⟨h', hio⟩)
      have hne : id ≠ new := fun he => hid' (he ▸ hnew)
      rw [hf.children hio, if_neg hne, h.retired hid']
      rfl
  · intro id hid hph'
    obtain ⟨hid, hio⟩ := hf.mem_ids.mp hid
    rw [TypeNode.isPlaceholder_eq (hf.bare id)] at hph'
    obtain ⟨hparents', hmethods⟩ := h.placeholder hid hph'
    rw [hf.parents hio hp, TypeNode.methods_eq (hf.bare id), hparents', List.map_nil]
    exact ⟨ite_self _, hmethods⟩

end fold

end Sound
namespace Fetches

variable {id : Nat}

/-- A look-up keeps a graph sound and gives a live type. -/
theorem sound (h : g.Fetches (g', id)) (hg : g.Sound) : g'.Sound ∧ id ∈ g'.ids := by
  cases h with
  | found h => exact ⟨hg, (hg.index.mp h).1⟩
  | added h => exact ⟨hg.addPlaceholder h, mem_ids_addPlaceholder.mpr (.inr rfl)⟩

theorem mem_ids (h : g.Fetches (g', id)) {other : Nat} (ho : other ∈ g.ids) : other ∈ g'.ids := by
  cases h with
  | found => exact ho
  | added => exact mem_ids_addPlaceholder.mpr (.inl ho)

theorem node (h : g.Fetches (g', id)) {other : Nat} (ho : other < g.nodes.length) :
    g'.node other = g.node other := by
  cases h with
  | found => rfl
  | added => rw [node_addPlaceholder, if_neg (Nat.ne_of_lt ho)]

/-- Only the type that was looked up may be a placeholder without children. -/
theorem used (h : g.Fetches (g', id)) (hu : g.Used) {other : Nat} (ho : other ∈ g'.ids)
    (hp : (g'.node other).isPlaceholder = true) (hne : other ≠ id) :
    (g'.node other).children ≠ [] := by
  cases h with
  | found => exact hu ho hp
  | added =>
    rw [node_addPlaceholder, if_neg hne] at hp ⊢
    exact hu ((mem_ids_addPlaceholder.mp ho).resolve_right hne) hp

end Fetches
end Graph
end ClassCompiler
