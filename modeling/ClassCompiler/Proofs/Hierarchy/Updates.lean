import ClassCompiler.Hierarchy.Declare
import Mathlib.Data.List.Nodup

/-!
# What updates do to a graph

A graph is seen through the numbers of its live types, the type with a number
and the number with a name. For each step of a declaration these say what has
changed and what has not. Apart from its edges a type is only changed by its
own declaration (`TypeNode.bare`).

Key definitions: `TypeNode.bare`, `Graph.Folded`.

Key theorems: `Graph.node_connect`, `Graph.adopt_ok`, `Graph.fold_ok`.
-/

namespace ClassCompiler

namespace TypeNode

/-- A type without its edges. -/
def bare (n : TypeNode) : TypeNode :=
  { n with extended := [], implemented := [], children := [], retiredInto := none }

/-- The parents of one kind. -/
def related (r : Relation) (n : TypeNode) : List TypeId :=
  match r with
  | .extending => n.extended
  | .implementing => n.implemented

variable (n : TypeNode)

@[simp] theorem bare_addChild (c : TypeId) : (n.addChild c).bare = n.bare := rfl

@[simp] theorem parents_addChild (c : TypeId) : (n.addChild c).parents = n.parents := rfl

@[simp] theorem isLive_addChild (c : TypeId) : (n.addChild c).isLive = n.isLive := rfl

@[simp] theorem bare_addParent (r : Relation) (p : TypeId) : (n.addParent r p).bare = n.bare := by
  cases r <;> rfl

@[simp] theorem children_addParent (r : Relation) (p : TypeId) :
    (n.addParent r p).children = n.children := by
  cases r <;> rfl

@[simp] theorem isLive_addParent (r : Relation) (p : TypeId) :
    (n.addParent r p).isLive = n.isLive := by
  cases r <;> rfl

/-- The new parent is one more, in its own list. -/
theorem parents_addParent (r : Relation) (p : TypeId) :
    (n.addParent r p).parents.Perm (p :: n.parents) := by
  cases r with
  | extending =>
    simp only [parents, addParent, List.append_assoc]
    exact List.perm_middle
  | implementing =>
    simp only [parents, addParent, ← List.append_assoc]
    exact List.perm_append_singleton _ _

@[simp] theorem bare_redirect (old new : TypeId) : (n.redirect old new).bare = n.bare := rfl

@[simp] theorem children_redirect (old new : TypeId) :
    (n.redirect old new).children = n.children := rfl

@[simp] theorem isLive_redirect (old new : TypeId) : (n.redirect old new).isLive = n.isLive := rfl

@[simp] theorem related_addChild (r : Relation) (c : TypeId) :
    (n.addChild c).related r = n.related r := by
  cases r <;> rfl

theorem related_addParent (r r' : Relation) (p : TypeId) :
    (n.addParent r p).related r' = n.related r' ++ if r' = r then [p] else [] := by
  cases r <;> cases r' <;> simp [addParent, related]

theorem related_redirect (r : Relation) (old new : TypeId) :
    (n.redirect old new).related r = (n.related r).map fun id => if id = old then new else id := by
  cases r <;> rfl

variable {n} {n' : TypeNode}

theorem name_eq (h : n'.bare = n.bare) : n'.name = n.name := congrArg (·.name) h

theorem isPlaceholder_eq (h : n'.bare = n.bare) : n'.isPlaceholder = n.isPlaceholder :=
  congrArg (·.isPlaceholder) h

theorem methods_eq (h : n'.bare = n.bare) : n'.methods = n.methods := congrArg (·.methods) h

end TypeNode

namespace Graph

variable {g g' : Graph}

theorem mem_ids {id : Nat} : id ∈ g.ids ↔ id < g.nodes.length ∧ (g.node id).isLive = true := by
  simp [ids]

section modify
variable (g : Graph) (id : TypeId) (f : TypeNode → TypeNode)

@[simp] theorem length_modify : (g.modify id f).nodes.length = g.nodes.length := by
  simp [modify]

@[simp] theorem find?_modify (name : String) : (g.modify id f).find? name = g.find? name := rfl

end modify

theorem find?_addPlaceholder (g : Graph) (name other : String) :
    (g.addPlaceholder name).find? other = if other = name then some g.nodes.length else g.find? other := by
  by_cases h : other = name
  · simp [addPlaceholder, find?, h]
  · have hne : (other == name) = false := by simpa using h
    simp [addPlaceholder, find?, List.lookup_cons, hne, h]

theorem node_addPlaceholder (g : Graph) (name : String) (id : Nat) :
    (g.addPlaceholder name).node id = if id = g.nodes.length then .placeholder name else g.node id := by
  simp only [node, addPlaceholder, List.getD_eq_getElem?_getD, List.getElem?_append]
  rcases Nat.lt_trichotomy id g.nodes.length with h | h | h
  · simp [h, Nat.ne_of_lt h]
  · simp [h]
  · have hne : id ≠ g.nodes.length := Nat.ne_of_gt h
    have hsub : ¬ id - g.nodes.length = 0 := by omega
    simp [Nat.not_lt.mpr (Nat.le_of_lt h), hne, hsub]

@[simp] theorem length_addPlaceholder (g : Graph) (name : String) :
    (g.addPlaceholder name).nodes.length = g.nodes.length + 1 := by
  simp [addPlaceholder]

theorem mem_ids_addPlaceholder {name : String} {id : Nat} :
    id ∈ (g.addPlaceholder name).ids ↔ id ∈ g.ids ∨ id = g.nodes.length := by
  rw [mem_ids, mem_ids, length_addPlaceholder, node_addPlaceholder]
  by_cases h : id = g.nodes.length
  · simp [h, TypeNode.isLive, TypeNode.placeholder]
  · simp only [h, if_false, or_false]
    constructor <;> rintro ⟨h₁, h₂⟩ <;> exact ⟨by omega, h₂⟩

theorem mem_ids_modify {id other : Nat} {f : TypeNode → TypeNode} (h : id < g.nodes.length)
    (hf : (f (g.node id)).isLive = (g.node id).isLive) :
    other ∈ (g.modify id f).ids ↔ other ∈ g.ids := by
  rw [mem_ids, mem_ids, length_modify, node_modify _ _ _ _ h]
  by_cases ho : other = id
  · rw [if_pos ho, hf, ho]
  · rw [if_neg ho]

section connect
variable {child parent : Nat} (r : Relation)

theorem node_connect (hc : child < g.nodes.length) (hp : parent < g.nodes.length) (id : Nat) :
    (g.connect child parent r).node id =
      if id = child then
        (if id = parent then (g.node id).addChild child else g.node id).addParent r parent
      else if id = parent then (g.node id).addChild child else g.node id := by
  rw [connect, node_modify _ _ _ _ (by simpa using hc), node_modify _ _ _ _ hp, node_modify _ _ _ _ hp]
  by_cases h : id = child
  · subst h
    by_cases h' : id = parent
    · subst h'
      simp
    · simp [h']
  · by_cases h' : id = parent
    · subst h'
      simp [h]
    · simp [h, h']

@[simp] theorem length_connect (g : Graph) (child parent : TypeId) (r : Relation) :
    (g.connect child parent r).nodes.length = g.nodes.length := by
  simp [connect]

@[simp] theorem find?_connect (g : Graph) (child parent : TypeId) (r : Relation) (name : String) :
    (g.connect child parent r).find? name = g.find? name := rfl

variable {r} (hc : child < g.nodes.length) (hp : parent < g.nodes.length) (id : Nat)
include hc hp

theorem bare_connect : ((g.connect child parent r).node id).bare = (g.node id).bare := by
  rw [node_connect r hc hp]
  split <;> split <;> simp

theorem isLive_connect : ((g.connect child parent r).node id).isLive = (g.node id).isLive := by
  rw [node_connect r hc hp]
  split <;> split <;> simp

theorem children_connect :
    ((g.connect child parent r).node id).children =
      (g.node id).children ++ if id = parent then [child] else [] := by
  rw [node_connect r hc hp]
  split <;> split <;> simp [TypeNode.addChild]

theorem parents_connect :
    ((g.connect child parent r).node id).parents.Perm
      ((if id = child then [parent] else []) ++ (g.node id).parents) := by
  rw [node_connect r hc hp]
  split
  · refine (TypeNode.parents_addParent _ r parent).trans (.cons _ ?_)
    split <;> exact .refl _
  · split <;> simp

theorem related_connect (r' : Relation) :
    ((g.connect child parent r).node id).related r' =
      (g.node id).related r' ++ if id = child ∧ r' = r then [parent] else [] := by
  rw [node_connect r hc hp]
  by_cases h : id = child
  · simp only [h, if_true, true_and, TypeNode.related_addParent]
    split <;> simp
  · simp only [h, if_false, false_and, List.append_nil]
    split <;> simp

theorem mem_ids_connect : id ∈ (g.connect child parent r).ids ↔ id ∈ g.ids := by
  rw [mem_ids, mem_ids, length_connect, isLive_connect hc hp]

end connect

/-! ### Looking names up and entering parents -/

/-- What a look-up does: it finds a live type, or adds a placeholder. -/
inductive Fetches (g : Graph) : Graph × TypeId → Prop
  | found {name : String} {id : TypeId} (h : g.find? name = some id) : Fetches g (g, id)
  | added {name : String} (h : g.find? name = none) :
    Fetches g (g.addPlaceholder name, g.nodes.length)

theorem fetches_fetch (g : Graph) (name : String) : g.Fetches (g.fetch name) := by
  rw [fetch]
  split
  · exact .found ‹_›
  · exact .added ‹_›

theorem fetches_resolve (g : Graph) (child : TypeId) (name : String) :
    g.Fetches (g.resolve child name) := by
  rw [resolve]
  split
  · exact .found ‹_›
  split
  · exact g.fetches_fetch _
  split
  · exact g.fetches_fetch _
  split
  · rename_i hfind
    obtain ⟨_, -, h⟩ := List.exists_of_findSome?_eq_some hfind
    exact .found h
  split
  · exact .found ‹_›
  · exact g.fetches_fetch _

theorem link_ok {child : TypeId} {r : Relation} {name : String} (h : g.link child r name = .ok g') :
    ∃ g₁ parent, g.resolve child name = (g₁, parent) ∧ parent ∉ (g₁.node child).parents ∧
      g' = g₁.connect child parent r := by
  rw [link] at h
  rcases hr : g.resolve child name with ⟨g₁, parent⟩
  simp only [hr] at h
  split at h
  · cases h
  · rename_i hp
    exact ⟨g₁, parent, rfl, by simpa using hp, (Except.ok.inj h).symm⟩

/-! ### Folding a placeholder into a declared type -/

/-- Children that are given to `new`: what a finished adoption leaves. -/
structure Adopted (g : Graph) (old new : Nat) (cs : List TypeId) (g' : Graph) : Prop where
  index : g'.index = g.index
  length : g'.nodes.length = g.nodes.length
  node : ∀ id, g'.node id =
    if id = new then { g.node new with children := (g.node new).children ++ cs }
    else if id ∈ cs then (g.node id).redirect old new
    else g.node id

theorem node_adoptOne (old : Nat) {new c : Nat} (hnew : new < g.nodes.length) (hc : c < g.nodes.length)
    (hne : new ≠ c) (id : Nat) :
    ((g.modify c (.redirect old new)).modify new (.addChild c)).node id =
      if id = new then (g.node new).addChild c
      else if id = c then (g.node c).redirect old new else g.node id := by
  rw [node_modify _ _ _ _ (by simpa using hnew), node_modify _ _ _ _ hc, node_modify _ _ _ _ hc,
    if_neg hne]

theorem adopt_ok {old new : Nat} : ∀ {cs : List TypeId} {g g' : Graph}, new < g.nodes.length →
    (∀ c ∈ cs, c < g.nodes.length) → new ∉ cs → cs.Nodup → g.adopt old new cs = (g', .ok ()) →
    (∀ c ∈ cs, new ∉ (g.node c).parents) ∧ g.Adopted old new cs g'
  | [], g, g', _, _, _, _, h => by
    obtain rfl : g = g' := (Prod.mk.inj h).1
    refine ⟨by simp, rfl, rfl, fun id => ?_⟩
    by_cases hid : id = new <;> simp [hid]
  | c :: cs, g, g', hnew, hcs, hn, hd, h => by
    obtain ⟨hne, hn⟩ := not_or.mp (mt List.mem_cons.mpr hn)
    obtain ⟨hc, hd⟩ := List.nodup_cons.mp hd
    rw [adopt] at h
    split at h
    · cases (Prod.mk.inj h).2
    rename_i hp
    have hstep := node_adoptOne old hnew (hcs c List.mem_cons_self) hne
    have hsame : ∀ c' ∈ cs, ((g.modify c (.redirect old new)).modify new (.addChild c)).node c' =
        g.node c' := by
      intro c' hc'
      rw [hstep, if_neg, if_neg]
      · rintro rfl
        exact hc hc'
      · rintro rfl
        exact hn hc'
    obtain ⟨hparents, hindex, hlength, hnode⟩ := adopt_ok (by simpa using hnew)
      (by simpa using fun c' hc' => hcs c' (List.mem_cons_of_mem c hc')) hn hd h
    refine ⟨?_, hindex, by simpa using hlength, fun id => ?_⟩
    · intro c' hc'
      rcases List.mem_cons.mp hc' with rfl | hc'
      · simpa using hp
      · exact hsame c' hc' ▸ hparents c' hc'
    · rw [hnode, hstep, if_pos rfl]
      by_cases hid : id = new
      · simp [hid, TypeNode.addChild]
      · by_cases hidc : id = c
        · subst hidc
          simp [hid, hc, hstep]
        · by_cases hids : id ∈ cs
          · simp [hid, hidc, hids, hsame id hids]
          · simp [hid, hidc, hids, hstep]

/-- Adoption succeeds if no child has the new parent already. -/
theorem exists_adopt_ok (old : Nat) {new : Nat} : ∀ {cs : List TypeId} {g : Graph}, new < g.nodes.length →
    (∀ c ∈ cs, c < g.nodes.length) → new ∉ cs → cs.Nodup →
    (∀ c ∈ cs, new ∉ (g.node c).parents) → ∃ g', g.adopt old new cs = (g', .ok ())
  | [], g, _, _, _, _, _ => ⟨g, rfl⟩
  | c :: cs, g, hnew, hcs, hn, hd, hp => by
    obtain ⟨hne, hn⟩ := not_or.mp (mt List.mem_cons.mpr hn)
    obtain ⟨hc, hd⟩ := List.nodup_cons.mp hd
    have hstep := node_adoptOne old hnew (hcs c List.mem_cons_self) hne
    rw [adopt, if_neg (by simpa using hp c List.mem_cons_self)]
    refine exists_adopt_ok old (by simpa using hnew)
      (by simpa using fun c' hc' => hcs c' (List.mem_cons_of_mem c hc')) hn hd fun c' hc' => ?_
    rw [hstep, if_neg, if_neg]
    · exact hp c' (List.mem_cons_of_mem c hc')
    · rintro rfl
      exact hc hc'
    · rintro rfl
      exact hn hc'

theorem lookup_filter_ne (name other : String) : ∀ index : List (String × TypeId),
    (index.filter fun entry => entry.1 != name).lookup other =
      if other = name then none else index.lookup other
  | [] => by simp
  | (key, id) :: index => by
    rw [List.filter_cons, List.lookup_cons]
    by_cases hk : key = name
    · subst hk
      simp only [bne_self_eq_false, Bool.false_eq_true, if_false, lookup_filter_ne key other index]
      by_cases ho : other = key
      · simp [ho]
      · simp [ho, beq_eq_false_iff_ne.mpr ho]
    · simp only [bne_iff_ne.mpr hk, if_true, List.lookup_cons, lookup_filter_ne name other index]
      by_cases ho : other = key
      · simp [ho, hk]
      · simp [beq_eq_false_iff_ne.mpr ho]

theorem find?_retire (g : Graph) (old new : TypeId) (name : String) :
    (g.retire old new).find? name = if name = (g.node old).name then none else g.find? name :=
  lookup_filter_ne _ _ _

theorem node_retire {old : Nat} (h : old < g.nodes.length) (new id : Nat) :
    (g.retire old new).node id =
      if id = old then { g.node old with retiredInto := some new } else g.node id :=
  node_modify g old id _ h

/-- The placeholder that stands for a declared type, and what all its children see. -/
theorem standIn?_eq_some {declared old : TypeId} :
    g.standIn? declared = some old ↔
      (g.node declared).name ≠ (g.node declared).identifier ∧
      g.find? (g.node declared).identifier = some old ∧ (g.node old).isPlaceholder = true ∧
      (g.node old).children ≠ [] ∧
      ∀ c ∈ (g.node old).children,
        (g.node c).sees (g.node declared).package (g.node declared).name = true := by
  rw [standIn?]
  split
  · simp [*]
  · simp only [ne_eq, *, not_false_eq_true, true_and, Option.filter_eq_some_iff, Bool.and_eq_true,
      Bool.not_eq_true', List.isEmpty_eq_false_iff, List.all_eq_true, and_assoc]

/-- What folding the placeholder `old` into `new` leaves. -/
structure Folded (g : Graph) (old new : Nat) (g' : Graph) : Prop where
  length : g'.nodes.length = g.nodes.length
  find? : ∀ name, g'.find? name = if name = (g.node old).name then none else g.find? name
  node : ∀ id, g'.node id =
    if id = old then { g.node old with children := [], retiredInto := some new }
    else if id = new then { g.node new with children := (g.node new).children ++ (g.node old).children }
    else if id ∈ (g.node old).children then (g.node id).redirect old new
    else g.node id

/-- A placeholder whose children can be given away. -/
structure Foldable (g : Graph) (old new : Nat) : Prop where
  old_lt : old < g.nodes.length
  new_lt : new < g.nodes.length
  ne : old ≠ new
  children_lt : ∀ c ∈ (g.node old).children, c < g.nodes.length
  nodup : (g.node old).children.Nodup
  old_notMem : old ∉ (g.node old).children
  new_notMem : new ∉ (g.node old).children

section fold
variable {old new : Nat} (hs : g.standIn? new = some old) (hf : g.Foldable old new)
include hs hf

theorem fold_ok (h : g.fold new = (g', .ok ())) :
    (∀ c ∈ (g.node old).children, new ∉ (g.node c).parents) ∧ g.Folded old new g' := by
  have hclear := fun id => node_modify g old id (fun n => { n with children := [] }) hf.old_lt
  have hsame : ∀ id ≠ old, (g.modify old fun n => { n with children := [] }).node id = g.node id :=
    fun id hid => by rw [hclear, if_neg hid]
  simp only [fold, hs] at h
  split at h
  · cases (Prod.mk.inj h).2
  · rename_i g₁ hadopt
    obtain rfl := (Prod.mk.inj h).1
    obtain ⟨hparents, hindex, hlength, hnode⟩ := adopt_ok (by simpa using hf.new_lt)
      (by simpa using hf.children_lt) hf.new_notMem hf.nodup hadopt
    have hold : g₁.node old = { g.node old with children := [] } := by
      rw [hnode, if_neg hf.ne, if_neg hf.old_notMem, hclear, if_pos rfl]
    have hlt : old < g₁.nodes.length := by
      rw [hlength, length_modify]
      exact hf.old_lt
    refine ⟨fun c hc => ?_, ?_, fun name => ?_, fun id => ?_⟩
    · rw [← hsame c fun he => hf.old_notMem (he ▸ hc)]
      exact hparents c hc
    · simpa [retire] using hlength
    · rw [find?_retire, hold, Graph.find?, hindex]
      rfl
    · rw [node_retire hlt, hold]
      by_cases hid : id = old
      · simp [hid]
      · rw [if_neg hid, if_neg hid, hnode, hsame _ hid, hsame _ hf.ne.symm]

theorem exists_fold_ok (hp : ∀ c ∈ (g.node old).children, new ∉ (g.node c).parents) :
    ∃ g', g.fold new = (g', .ok ()) := by
  have hsame : ∀ id ≠ old, (g.modify old fun n => { n with children := [] }).node id = g.node id :=
    fun id hid => by rw [node_modify _ _ _ _ hf.old_lt, if_neg hid]
  obtain ⟨g₁, h₁⟩ := exists_adopt_ok old (g := g.modify old fun n => { n with children := [] })
    (by simpa using hf.new_lt) (by simpa using hf.children_lt) hf.new_notMem hf.nodup
    fun c hc => by
      rw [hsame c fun he => hf.old_notMem (he ▸ hc)]
      exact hp c hc
  exact ⟨g₁.retire old new, by simp only [fold, hs, h₁]⟩

end fold

theorem count_redirect {old new : Nat} (p : Nat) (hp : p ≠ old) : ∀ l : List Nat,
    (l.map fun q => if q = old then new else q).count p = l.count p + if p = new then l.count old else 0
  | [] => by simp
  | q :: l => by
    rw [List.map_cons, List.count_cons, List.count_cons, List.count_cons, count_redirect p hp l]
    grind

theorem nodup_redirect {old new : Nat} {l : List Nat} (h : l.Nodup) (hn : new ∉ l) :
    (l.map fun q => if q = old then new else q).Nodup := by
  refine h.map_on fun x hx y hy hxy => ?_
  split at hxy <;> split at hxy
  · simp_all
  · exact absurd (hxy ▸ hy) hn
  · exact absurd (hxy ▸ hx) hn
  · exact hxy

namespace Folded

variable {old new : Nat} (h : g.Folded old new g')
include h

theorem bare (id : Nat) : (g'.node id).bare = (g.node id).bare := by
  rw [h.node]
  by_cases h₁ : id = old
  · simp [h₁, TypeNode.bare]
  · by_cases h₂ : id = new
    · subst h₂
      simp [h₁, TypeNode.bare]
    · simp only [h₁, h₂, if_false]
      split <;> simp

theorem mem_ids {id : Nat} : id ∈ g'.ids ↔ id ∈ g.ids ∧ id ≠ old := by
  rw [Graph.mem_ids, Graph.mem_ids, h.length, h.node]
  by_cases h₁ : id = old
  · simp [h₁, TypeNode.isLive]
  · by_cases h₂ : id = new
    · subst h₂
      simp [h₁, TypeNode.isLive]
    · simp only [h₁, h₂, if_false, ne_eq, not_false_eq_true, and_true]
      split <;> simp

theorem children {id : Nat} (hid : id ≠ old) :
    (g'.node id).children =
      (g.node id).children ++ if id = new then (g.node old).children else [] := by
  rw [h.node, if_neg hid]
  by_cases h₂ : id = new
  · simp [h₂]
  · simp only [h₂, if_false, List.append_nil]
    split <;> simp

/-- The children of the placeholder have the new parent in its place. -/
theorem related {id : Nat} (r : Relation) (hid : id ≠ old) (hnew : (g.node new).parents = []) :
    (g'.node id).related r = if id ∈ (g.node old).children then
      ((g.node id).related r).map fun p => if p = old then new else p else (g.node id).related r := by
  rw [h.node, if_neg hid]
  by_cases h₂ : id = new
  · subst h₂
    obtain ⟨hext, himp⟩ := List.append_eq_nil_iff.mp hnew
    cases r <;> simp [TypeNode.related, hext, himp]
  · simp only [h₂, if_false]
    split
    · exact TypeNode.related_redirect _ _ _ _
    · rfl

theorem parents {id : Nat} (hid : id ≠ old) (hnew : (g.node new).parents = []) :
    (g'.node id).parents = if id ∈ (g.node old).children then
      (g.node id).parents.map fun p => if p = old then new else p else (g.node id).parents := by
  have hext := h.related .extending hid hnew
  have himp := h.related .implementing hid hnew
  simp only [TypeNode.related] at hext himp
  rw [TypeNode.parents, hext, himp]
  split
  · exact (List.map_append ..).symm
  · rfl

end Folded

end Graph
end ClassCompiler
