import ClassCompiler.Proofs.Hierarchy.Lawful
import ClassCompiler.Proofs.Hierarchy.Sound
import Mathlib.Data.List.Perm.Subperm

/-!
# The search for cycles

The search goes through the descendants of every type in depth and remembers
the types on the path it is on and all types it has visited. `Graph.Searches`
is the same search without the count of its depth, so that each of its
derivations is a run that ends; the count never runs out because no path holds
a type twice. A type that is met on its own path lies on a cycle, and the types
that have been visited and left are closed under children and on no cycle.

Key definitions: `Graph.Child`, `Graph.Searches`, `Graph.Finished`.

Key theorems: `Graph.searches_findCycle`, `Graph.checkAcyclic_eq_ok`.
-/

namespace ClassCompiler
namespace Graph

variable {g : Graph}

/-- A type and one that names it as a parent. -/
def Child (g : Graph) (p c : Nat) : Prop := c ∈ (g.node p).children

/-- The search below some types, given the path to them and what has been
visited. -/
inductive Searches (g : Graph) :
    List TypeId → List TypeId → List TypeId → Except TypeId (List TypeId) → Prop
  | done {path visited : List TypeId} : Searches g path visited [] (.ok visited)
  | met {path visited ids : List TypeId} {id : TypeId} (hp : id ∈ path) :
    Searches g path visited (id :: ids) (.error id)
  | again {path visited ids : List TypeId} {id : TypeId} {r : Except TypeId (List TypeId)}
    (hp : id ∉ path) (hv : id ∈ visited) (rest : Searches g path visited ids r) :
    Searches g path visited (id :: ids) r
  | failed {path visited ids : List TypeId} {id e : TypeId} (hp : id ∉ path) (hv : id ∉ visited)
    (below : Searches g (id :: path) (id :: visited) (g.node id).children (.error e)) :
    Searches g path visited (id :: ids) (.error e)
  | entered {path visited visited' ids : List TypeId} {id : TypeId} {r : Except TypeId (List TypeId)}
    (hp : id ∉ path) (hv : id ∉ visited)
    (below : Searches g (id :: path) (id :: visited) (g.node id).children (.ok visited'))
    (rest : Searches g path visited' ids r) : Searches g path visited (id :: ids) r

/-- A path that holds no type twice is no longer than there are types. -/
theorem length_path_le {path : List Nat} (hd : path.Nodup) (hp : ∀ id ∈ path, id ∈ g.ids) :
    path.length ≤ g.nodes.length := by
  have hsub : path ⊆ List.range g.nodes.length := by
    intro id hid
    exact List.mem_range.mpr (mem_ids.mp (hp id hid)).1
  simpa using (List.subperm_of_subset hd hsub).length_le

/-- With a count above the number of types left, the search ends by itself. -/
theorem searches_findCycle (hg : g.Sound) : ∀ (depth : Nat) (path visited ids : List Nat),
    path.Nodup → (∀ id ∈ path, id ∈ g.ids) → (∀ id ∈ ids, id ∈ g.ids) →
    g.nodes.length < depth + path.length →
    g.Searches path visited ids
      (ids.foldlM (fun visited id => g.findCycle depth path visited id) visited)
  | 0, path, _, _, hd, hp, _, hlt => by
    have := length_path_le hd hp
    omega
  | _ + 1, _, _, [], _, _, _, _ => .done
  | depth + 1, path, visited, id :: ids, hd, hp, hids, hlt => by
    obtain ⟨hid, hids⟩ := List.forall_mem_cons.mp hids
    have rest := fun visited => searches_findCycle hg (depth + 1) path visited ids hd hp hids hlt
    rw [List.foldlM_cons, findCycle]
    by_cases hpath : id ∈ path
    · rw [if_pos (by simpa using hpath)]
      exact .met hpath
    rw [if_neg (by simpa using hpath)]
    by_cases hvisited : id ∈ visited
    · rw [if_pos (by simpa using hvisited)]
      exact .again hpath hvisited (rest visited)
    rw [if_neg (by simpa using hvisited)]
    have below := searches_findCycle hg depth (id :: path) (id :: visited) (g.node id).children
      (List.nodup_cons.mpr ⟨hpath, hd⟩) (List.forall_mem_cons.mpr ⟨hid, hp⟩)
      (fun c hc => hg.child_mem hid hc) (by rw [List.length_cons]; omega)
    rcases hr : (g.node id).children.foldlM
      (fun visited c => g.findCycle depth (id :: path) visited c) (id :: visited) with e | visited'
    · exact .failed hpath hvisited (hr ▸ below)
    · exact .entered hpath hvisited (hr ▸ below) (rest visited')
termination_by depth _ _ ids => (depth, ids.length)

/-- A type that is met on the path to itself lies on a cycle. -/
theorem Searches.cycle {path visited ids : List Nat} {e : Nat}
    (h : g.Searches path visited ids (.error e))
    (hpath : ∀ p ∈ path, ∀ id ∈ ids, Relation.TransGen g.Child p id) :
    Relation.TransGen g.Child e e := by
  generalize hr : Except.error e = r at h
  induction h with
  | done => cases hr
  | met hp =>
    cases hr
    exact hpath _ hp _ List.mem_cons_self
  | again _ _ _ ih => exact ih (fun p hp id hid => hpath p hp id (List.mem_cons_of_mem _ hid)) hr
  | failed _ _ _ ih =>
    refine ih (List.forall_mem_cons.mpr ⟨fun c hc => .single hc, fun p hp c hc => ?_⟩) hr
    exact (hpath p hp _ List.mem_cons_self).tail hc
  | entered _ _ _ _ _ ih => exact ih (fun p hp id hid => hpath p hp id (List.mem_cons_of_mem _ hid)) hr

/-- The types that have been visited and left. -/
structure Finished (g : Graph) (path visited : List Nat) : Prop where
  closed : ∀ v ∈ visited, v ∉ path → ∀ c, g.Child v c → c ∈ visited ∧ c ∉ path
  acyclic : ∀ v ∈ visited, v ∉ path → ¬ Relation.TransGen g.Child v v

theorem Finished.descendant {path visited : List Nat} (h : g.Finished path visited) {v w : Nat}
    (hv : v ∈ visited ∧ v ∉ path) (hw : Relation.ReflTransGen g.Child v w) :
    w ∈ visited ∧ w ∉ path := by
  induction hw with
  | refl => exact hv
  | tail _ hc ih => exact h.closed _ ih.1 ih.2 _ hc

/-- Entering a type finishes nothing. -/
theorem Finished.enter {path visited : List Nat} (h : g.Finished path visited) {id : Nat}
    (hv : id ∉ visited) : g.Finished (id :: path) (id :: visited) := by
  have hold : ∀ v ∈ id :: visited, v ∉ id :: path → v ∈ visited ∧ v ∉ path := by
    intro v hv hp
    obtain ⟨hne, hp⟩ := not_or.mp (mt List.mem_cons.mpr hp)
    exact ⟨(List.mem_cons.mp hv).resolve_left hne, hp⟩
  refine ⟨fun v hv' hp c hc => ?_, fun v hv' hp => ?_⟩
  · obtain ⟨h₁, h₂⟩ := hold v hv' hp
    obtain ⟨h₃, h₄⟩ := h.closed v h₁ h₂ c hc
    refine ⟨List.mem_cons_of_mem _ h₃, ?_⟩
    rw [List.mem_cons]
    rintro (rfl | h₅)
    · exact hv h₃
    · exact h₄ h₅
  · obtain ⟨h₁, h₂⟩ := hold v hv' hp
    exact h.acyclic v h₁ h₂

/-- A type is finished when its children are: a cycle through it would come
back over one of them. -/
theorem Finished.leave {path visited : List Nat} {id : Nat} (h : g.Finished (id :: path) visited)
    (hc : ∀ c, g.Child id c → c ∈ visited ∧ c ∉ id :: path) : g.Finished path visited := by
  have hout : ∀ {v}, v ∉ id :: path → v ∉ path := fun h => mt (List.mem_cons_of_mem _) h
  have hold : ∀ {v}, v ∉ path → v ≠ id → v ∉ id :: path := fun h hne => by simp [h, hne]
  refine ⟨fun v hv hp c hchild => ?_, fun v hv hp hcycle => ?_⟩
  · by_cases hvid : v = id
    · subst hvid
      exact (hc c hchild).imp_right hout
    · exact (h.closed v hv (hold hp hvid) c hchild).imp_right hout
  · by_cases hvid : v = id
    · subst hvid
      obtain ⟨c, hchild, hback⟩ := Relation.TransGen.head'_iff.mp hcycle
      exact (h.descendant (hc c hchild) hback).2 List.mem_cons_self
    · exact h.acyclic v hv (hold hp hvid) hcycle

theorem Searches.finished {path visited ids visited' : List Nat}
    (h : g.Searches path visited ids (.ok visited')) (hf : g.Finished path visited) :
    g.Finished path visited' ∧ visited ⊆ visited' ∧ ∀ id ∈ ids, id ∈ visited' ∧ id ∉ path := by
  generalize hr : Except.ok visited' = r at h
  induction h generalizing visited' with
  | done =>
    cases hr
    exact ⟨hf, List.Subset.refl _, nofun⟩
  | met => cases hr
  | again hp hv _ ih =>
    obtain ⟨h₁, h₂, h₃⟩ := ih hf hr
    exact ⟨h₁, h₂, List.forall_mem_cons.mpr ⟨⟨h₂ hv, hp⟩, h₃⟩⟩
  | failed => cases hr
  | entered hp hv _ _ ihbelow ih =>
    obtain ⟨h₁, h₂, h₃⟩ := ihbelow (hf.enter hv) rfl
    obtain ⟨h₄, h₅, h₆⟩ := ih (h₁.leave fun c hc => h₃ c hc) hr
    have hin := h₂ List.mem_cons_self
    exact ⟨h₄, fun v hv => h₅ (h₂ (List.mem_cons_of_mem _ hv)),
      List.forall_mem_cons.mpr ⟨⟨h₅ hin, hp⟩, h₆⟩⟩

/-- Descending over children is ascending over parents. -/
theorem Sound.transGen_child (hg : g.Sound) {p c : Nat} (hp : p ∈ g.ids) :
    Relation.TransGen g.Child p c ↔ c ∈ g.ids ∧ Relation.TransGen g.Parent c p := by
  constructor
  · intro h
    induction h with
    | single hc =>
      have hmem := hg.child_mem hp hc
      exact ⟨hmem, .single ((hg.mem_children hp hmem).mp hc)⟩
    | tail _ hc ih =>
      have hmem := hg.child_mem ih.1 hc
      exact ⟨hmem, .head ((hg.mem_children ih.1 hmem).mp hc) ih.2⟩
  · rintro ⟨hc, h⟩
    induction h using Relation.TransGen.head_induction_on with
    | single hpar => exact .single ((hg.mem_children hp hc).mpr hpar)
    | head hpar _ ih =>
      have hmem := hg.parent_mem hc hpar
      exact .tail (ih hmem) ((hg.mem_children hmem hc).mpr hpar)

/-- The type that a search reports lies on a cycle. -/
theorem cycle_of_checkAcyclic (hg : g.Sound) {v : Violation} (h : g.checkAcyclic = .error v) :
    ∃ e ∈ g.ids, v = .cycle (g.node e).name ∧ Relation.TransGen g.Parent e e := by
  have hsearch := searches_findCycle hg (g.nodes.length + 1) [] [] g.ids List.nodup_nil nofun
    (fun _ h => h) (by simp)
  rw [checkAcyclic] at h
  split at h
  · rename_i e he
    have hloop := (he ▸ hsearch).cycle nofun
    have hmem : e ∈ g.ids := by
      by_contra hout
      obtain ⟨c, hc, -⟩ := Relation.TransGen.head'_iff.mp hloop
      rw [Child, hg.retired hout] at hc
      cases hc
    exact ⟨e, hmem, (Except.error.inj h).symm, ((hg.transGen_child hmem).mp hloop).2⟩
  · cases h

theorem checkAcyclic_eq_ok (hg : g.Sound) :
    g.checkAcyclic = .ok () ↔ ∀ c ∈ g.ids, ¬ Relation.TransGen g.Parent c c := by
  constructor
  · intro h c hc hcycle
    have hsearch := searches_findCycle hg (g.nodes.length + 1) [] [] g.ids List.nodup_nil nofun
      (fun _ h => h) (by simp)
    rw [checkAcyclic] at h
    split at h
    · cases h
    · rename_i visited he
      obtain ⟨hfin, -, hall⟩ := (he ▸ hsearch).finished ⟨nofun, nofun⟩
      exact hfin.acyclic c (hall c hc).1 (hall c hc).2 ((hg.transGen_child hc).mpr ⟨hc, hcycle⟩)
  · intro h
    rcases hr : g.checkAcyclic with v | _
    · obtain ⟨e, he, -, hcycle⟩ := cycle_of_checkAcyclic hg hr
      exact absurd hcycle (h e he)
    · rfl

end Graph
end ClassCompiler
