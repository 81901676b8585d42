import ClassCompiler.Dispatch.Build
import ClassCompiler.Proofs.Hierarchy.ByName

/-!
# Superclasses and the memo of vtables

The vtable of a class grows from that of its superclass. `Graph.HasVtable` says
so one class at a time, without a bound on the length of a chain, without the
classes that are pending and without the memo.

A graph that units build need not be lawful, and then a class may lead up to
itself. The chain from a class is followed with the path behind it, which holds
no type twice and leads up to the type the chain is at. So the chain is followed
no further than there are types, whatever bound it is given, and it fails only at
a type that lies on a cycle.

Every vtable in the memo is the vtable of its class, and a class that has a
vtable is on no cycle. So a chain that comes to a class of the memo could have
been followed to its end, and the classes have the same layouts, or fail with
the same error, as when every vtable is made afresh (`Layout.classLayouts_eq`).

Key definitions: `Graph.Superclass`, `Graph.HasVtable`, `Graph.superclassChain`, `Graph.vtable`,
`Graph.Loops`, `Graph.Passed`, `Graph.Remembers`, `Layout.plainClassLayouts`.

Key theorems: `Graph.cycle_of_superclassChain`, `Graph.superclassChain_congr`,
`Graph.vtableOf_congr`, `Graph.vtableOf_ok`, `Graph.vtableOf_error`, `Layout.classLayouts_eq`.
-/

namespace ClassCompiler

namespace Graph

variable {g : Graph}

/-- A class and the type that it extends. -/
def Superclass (g : Graph) (c p : Nat) : Prop := g.superclass? c = some p

theorem extends_of_superclass {c p : Nat} (h : g.Superclass c p) : g.Extends c p := by
  rw [Superclass, superclass?] at h
  split at h
  · exact List.mem_of_mem_head? h
  · cases h

theorem parent_of_superclass {c p : Nat} (h : g.Superclass c p) : g.Parent c p :=
  List.mem_append_left _ (extends_of_superclass h)

theorem isClass_of_superclass {c p : Nat} (h : g.Superclass c p) : (g.node c).isClass = true := by
  rw [Superclass, superclass?] at h
  split at h
  · assumption
  · cases h

/-- The vtable of a type, from that of the type it extends as a class. -/
inductive HasVtable (g : Graph) : TypeId → List VtableEntry → Prop
  | first {id : TypeId} (h : g.superclass? id = none) :
    HasVtable g id (Vtable.extend [] (g.node id).methods)
  | extending {id p : TypeId} {vtable : List VtableEntry} (h : g.Superclass id p)
    (above : HasVtable g p vtable) : HasVtable g id (Vtable.extend vtable (g.node id).methods)

theorem HasVtable.unique {id : Nat} {v w : List VtableEntry} (hv : g.HasVtable id v)
    (hw : g.HasVtable id w) : v = w := by
  induction hv generalizing w with
  | first h =>
    cases hw with
    | first => rfl
    | extending h' => cases h.symm.trans h'
  | extending h _ ih =>
    cases hw with
    | first h' => cases h'.symm.trans h
    | extending h' above =>
      obtain rfl := Option.some.inj (Eq.trans (Eq.symm h) h')
      rw [ih above]

/-! ### Without the memo -/

/-- A type and its superclasses up to the last, having passed `path`. The
error is a type that the chain comes back to. -/
def superclassChain (g : Graph) : Nat → List TypeId → TypeId → Except TypeId (List TypeId)
  | 0, _, id => .error id
  | depth + 1, path, id =>
    if path.contains id then .error id
    else
      match g.superclass? id with
      | none => .ok [id]
      | some parent =>
        match g.superclassChain depth (id :: path) parent with
        | .error met => .error met
        | .ok chain => .ok (id :: chain)

/-- The vtable of a class, made afresh from its chain of superclasses. -/
def vtable (g : Graph) (id : TypeId) : Except Error (List VtableEntry) :=
  match g.superclassChain (g.nodes.length + 1) [] id with
  | .error met => .error (.internal (.cyclicSuperclasses (g.node met).name))
  | .ok chain => .ok (chain.foldr (fun id vtable => Vtable.extend vtable (g.node id).methods) [])

theorem hasVtable_of_superclassChain : ∀ {depth : Nat} {path chain : List TypeId} {id : TypeId},
    g.superclassChain depth path id = .ok chain →
    g.HasVtable id (chain.foldr (fun id vtable => Vtable.extend vtable (g.node id).methods) [])
  | 0, _, _, _, h => by cases h
  | depth + 1, path, chain, id, h => by
    rw [superclassChain] at h
    split at h
    · cases h
    · split at h
      · rename_i hnone
        cases h
        exact .first hnone
      · rename_i p hp
        split at h
        · cases h
        · rename_i rest hrest
          cases h
          exact .extending hp (hasVtable_of_superclassChain hrest)

theorem hasVtable_of_vtable {id : Nat} {v : List VtableEntry} (h : g.vtable id = .ok v) :
    g.HasVtable id v := by
  rw [vtable] at h
  split at h
  · cases h
  · rename_i chain hchain
    cases h
    exact hasVtable_of_superclassChain hchain

/-! ### Chains that come back -/

/-- The chain of superclasses from a type comes back to a type on it. -/
def Loops (g : Graph) (id : TypeId) : Prop :=
  ∃ c, Relation.ReflTransGen g.Superclass id c ∧ Relation.TransGen g.Superclass c c

theorem lt_of_superclass {c p : Nat} (h : g.Superclass c p) : c < g.nodes.length := by
  have hclass := isClass_of_superclass h
  by_contra hge
  have hnone : g.nodes[c]? = none := List.getElem?_eq_none_iff.mpr (Nat.le_of_not_lt hge)
  rw [node, List.getD_eq_getElem?_getD, hnone] at hclass
  cases hclass

/-- A class loops if and only if its superclass does. -/
theorem loops_iff_of_superclass {c p : Nat} (h : g.Superclass c p) : g.Loops c ↔ g.Loops p := by
  have hunique : ∀ {p'}, g.Superclass c p' → p' = p := fun h' => Option.some.inj (Eq.trans (Eq.symm h') h)
  constructor
  · rintro ⟨d, hup, hcycle⟩
    rcases hup.cases_head with rfl | ⟨p', hp', hup'⟩
    · -- the class is on the cycle itself, and its superclass comes next on it
      obtain ⟨p', hp', hback⟩ := Relation.TransGen.head'_iff.mp hcycle
      rw [hunique hp'] at hback
      exact ⟨c, hback, hcycle⟩
    · rw [hunique hp'] at hup'
      exact ⟨d, hup', hcycle⟩
  · rintro ⟨d, hup, hcycle⟩
    exact ⟨d, .head h hup, hcycle⟩

theorem not_loops_of_superclass?_eq_none {id : Nat} (h : g.superclass? id = none) : ¬ g.Loops id := by
  have hlast : ∀ {p}, ¬ g.Superclass id p := fun hs => by cases h.symm.trans hs
  rintro ⟨d, hup, hcycle⟩
  rcases hup.cases_head with rfl | ⟨p, hp, -⟩
  · obtain ⟨p, hp, -⟩ := Relation.TransGen.head'_iff.mp hcycle
    exact hlast hp
  · exact hlast hp

theorem HasVtable.not_loops {id : Nat} {v : List VtableEntry} (h : g.HasVtable id v) : ¬ g.Loops id := by
  induction h with
  | first h => exact not_loops_of_superclass?_eq_none h
  | extending h _ ih => rwa [loops_iff_of_superclass h]

/-! ### The path behind a chain -/

/-- The types that a chain has passed before it came to a type. -/
structure Passed (g : Graph) (path : List TypeId) (id : TypeId) : Prop where
  nodup : path.Nodup
  below : ∀ q ∈ path, Relation.TransGen g.Superclass q id

namespace Passed

variable {path : List TypeId} {id : TypeId}

theorem nil (g : Graph) (id : TypeId) : g.Passed [] id := ⟨List.nodup_nil, List.forall_mem_nil _⟩

theorem step {p : TypeId} (h : g.Passed path id) (hnew : id ∉ path) (hs : g.Superclass id p) :
    g.Passed (id :: path) p :=
  ⟨List.nodup_cons.mpr ⟨hnew, h.nodup⟩,
    List.forall_mem_cons.mpr ⟨.single hs, fun q hq => (h.below q hq).tail hs⟩⟩

theorem length_le (h : g.Passed path id) : path.length ≤ g.nodes.length := by
  have hsub : path ⊆ List.range g.nodes.length := by
    intro q hq
    obtain ⟨p, hp, -⟩ := Relation.TransGen.head'_iff.mp (h.below q hq)
    exact List.mem_range.mpr (lt_of_superclass hp)
  simpa using (List.subperm_of_subset h.nodup hsub).length_le

end Passed

/-- The type that a chain fails at lies on a cycle above the start. -/
theorem cycle_of_superclassChain : ∀ {depth : Nat} {path : List TypeId} {id met : TypeId},
    g.Passed path id → g.nodes.length < depth + path.length →
    g.superclassChain depth path id = .error met →
    Relation.ReflTransGen g.Superclass id met ∧ Relation.TransGen g.Superclass met met
  | 0, path, id, met, hp, hlt, _ => by
    have := hp.length_le
    omega
  | depth + 1, path, id, met, hp, hlt, h => by
    rw [superclassChain] at h
    split at h
    · rename_i hmem
      cases h
      exact ⟨.refl, hp.below id (by simpa using hmem)⟩
    · rename_i hnew
      split at h
      · cases h
      · rename_i p hs
        split at h
        · rename_i met' hrest
          cases h
          have hpassed := hp.step (by simpa using hnew) hs
          have hroom : g.nodes.length < depth + (id :: path).length := by
            rw [List.length_cons]
            omega
          obtain ⟨hup, hcycle⟩ := cycle_of_superclassChain hpassed hroom hrest
          exact ⟨.head hs hup, hcycle⟩
        · cases h

/-- A bound above the number of types left is never what ends a chain. -/
theorem superclassChain_congr : ∀ {depth depth' : Nat} {path : List TypeId} {id : TypeId},
    g.Passed path id → g.nodes.length < depth + path.length → g.nodes.length < depth' + path.length →
    g.superclassChain depth path id = g.superclassChain depth' path id
  | 0, _, path, id, hp, hlt, _ | _, 0, path, id, hp, _, hlt => by
    have := hp.length_le
    omega
  | depth + 1, depth' + 1, path, id, hp, hlt, hlt' => by
    rw [superclassChain, superclassChain]
    by_cases hmem : id ∈ path
    · rw [if_pos (by simpa using hmem), if_pos (by simpa using hmem)]
    · rw [if_neg (by simpa using hmem), if_neg (by simpa using hmem)]
      rcases hs : g.superclass? id with _ | p
      · rfl
      · have hrest : g.superclassChain depth (id :: path) p = g.superclassChain depth' (id :: path) p := by
          apply superclassChain_congr (hp.step hmem hs)
          · rw [List.length_cons]
            omega
          · rw [List.length_cons]
            omega
        simp only [hrest]

/-- A type has no vtable only if its chain loops. -/
theorem cycle_of_vtable {id : Nat} {e : Error} (h : g.vtable id = .error e) :
    ∃ met, e = .internal (.cyclicSuperclasses (g.node met).name) ∧
      Relation.ReflTransGen g.Superclass id met ∧ Relation.TransGen g.Superclass met met := by
  rw [vtable] at h
  split at h
  · rename_i met hchain
    cases h
    exact ⟨met, rfl, cycle_of_superclassChain (.nil g id) (by simp) hchain⟩
  · cases h

/-- What has a vtable has the one that is made afresh. -/
theorem HasVtable.vtable_eq {id : Nat} {v : List VtableEntry} (h : g.HasVtable id v) :
    g.vtable id = .ok v := by
  rcases hv : g.vtable id with e | w
  · obtain ⟨met, -, hup, hcycle⟩ := cycle_of_vtable hv
    exact absurd ⟨met, hup, hcycle⟩ h.not_loops
  · rw [(hasVtable_of_vtable hv).unique h]

/-! ### The memo -/

/-- Every vtable of a memo is that of its class. -/
def Remembers (g : Graph) (memo : VtableMemo) : Prop :=
  ∀ id v, (id, v) ∈ memo → g.HasVtable id v

namespace Remembers

variable {memo : VtableMemo}

theorem nil (g : Graph) : g.Remembers [] := fun _ _ h => absurd h List.not_mem_nil

theorem hasVtable (h : g.Remembers memo) {id : TypeId} {v : List VtableEntry}
    (hv : memo.lookup id = some v) : g.HasVtable id v := by
  obtain ⟨before, after, rfl, -⟩ := List.lookup_eq_some_iff.mp hv
  exact h id v (by simp)

theorem cons (h : g.Remembers memo) {id : TypeId} {v : List VtableEntry} (hv : g.HasVtable id v) :
    g.Remembers ((id, v) :: memo) := by
  intro id' v' hmem
  rcases List.mem_cons.mp hmem with heq | hmem
  · cases heq
    exact hv
  · exact h id' v' hmem

end Remembers

/-- What is found or made is the vtable of the class, and stays so in the memo. -/
theorem vtableOf_ok : ∀ {depth : Nat} {memo memo' : VtableMemo} {pending : List TypeId} {id : TypeId}
    {v : List VtableEntry}, g.Remembers memo →
    g.vtableOf depth memo pending id = .ok (v, memo') → g.HasVtable id v ∧ g.Remembers memo'
  | 0, _, _, _, _, _, _, h => by cases h
  | depth + 1, memo, memo', pending, id, v, hm, h => by
    rw [vtableOf] at h
    split at h
    · rename_i hlookup
      cases h
      exact ⟨hm.hasVtable hlookup, hm⟩
    · split at h
      · cases h
      · split at h
        · rename_i hnone
          cases h
          exact ⟨.first hnone, hm.cons (.first hnone)⟩
        · rename_i p hp
          split at h
          · cases h
          · rename_i above memo₁ habove
            obtain ⟨hv, hm₁⟩ := vtableOf_ok hm habove
            cases h
            exact ⟨.extending hp hv, hm₁.cons (.extending hp hv)⟩

/-- The class that a vtable fails at is the one that its chain fails at. -/
theorem vtableOf_error : ∀ {depth : Nat} {memo : VtableMemo} {pending : List TypeId}
    {id met : TypeId}, g.vtableOf depth memo pending id = .error met →
    g.superclassChain depth pending id = .error met
  | 0, _, _, _, _, h => by
    cases h
    rfl
  | depth + 1, memo, pending, id, met, h => by
    rw [vtableOf] at h
    rw [superclassChain]
    rcases hlookup : memo.lookup id with _ | vtable
    · by_cases hmem : pending.contains id = true
      · simp only [hlookup, hmem, if_true] at h
        cases h
        rw [if_pos hmem]
      · rw [if_neg hmem]
        rcases hp : g.superclass? id with _ | p
        · simp only [hlookup, hmem, hp] at h
          cases h
        · rcases habove : g.vtableOf depth memo (id :: pending) p with met' | above
          · simp only [hlookup, hmem, hp, habove] at h
            cases h
            simp only [vtableOf_error habove]
          · simp only [hlookup, hmem, hp, habove] at h
            cases h
    · simp only [hlookup] at h
      cases h

/-- A bound above the number of types left is never what ends the recursion. -/
theorem vtableOf_congr : ∀ {depth depth' : Nat} {memo : VtableMemo} {pending : List TypeId}
    {id : TypeId}, g.Passed pending id → g.nodes.length < depth + pending.length →
    g.nodes.length < depth' + pending.length →
    g.vtableOf depth memo pending id = g.vtableOf depth' memo pending id
  | 0, _, _, pending, id, hp, hlt, _ | _, 0, _, pending, id, hp, _, hlt => by
    have := hp.length_le
    omega
  | depth + 1, depth' + 1, memo, pending, id, hp, hlt, hlt' => by
    rw [vtableOf, vtableOf]
    by_cases hmem : id ∈ pending
    · rw [if_pos (by simpa using hmem), if_pos (by simpa using hmem)]
    · rw [if_neg (by simpa using hmem), if_neg (by simpa using hmem)]
      rcases hs : g.superclass? id with _ | p
      · rfl
      · have habove : g.vtableOf depth memo (id :: pending) p =
            g.vtableOf depth' memo (id :: pending) p := by
          apply vtableOf_congr (hp.step hmem hs)
          · rw [List.length_cons]
            omega
          · rw [List.length_cons]
            omega
        simp only [habove]

end Graph

namespace Layout

variable {g : Graph}

/-- The layouts of classes with every vtable made afresh. -/
def plainClassLayouts (g : Graph) (typeId classId : Nat) :
    List TypeId → Except Error (List ClassLayout)
  | [] => .ok []
  | id :: ids =>
    if (g.node id).isClass then
      match g.vtable id with
      | .error e => .error e
      | .ok vtable =>
        match plainClassLayouts g (typeId + 1) (classId + 1) ids with
        | .error e => .error e
        | .ok rest => .ok (⟨(g.node id).name, classId, typeId, vtable⟩ :: rest)
    else plainClassLayouts g (typeId + 1) classId ids

/-- The memo changes no layout and no error. -/
theorem classLayouts_eq : ∀ {ids : List TypeId} {memo : VtableMemo} {t k : Nat}, g.Remembers memo →
    classLayouts g memo t k ids = plainClassLayouts g t k ids
  | [], _, _, _, _ => rfl
  | id :: ids, memo, t, k, hm => by
    rw [classLayouts, plainClassLayouts]
    split
    · rcases hv : g.vtableOf (g.nodes.length + 1) memo [] id with met | ⟨v, memo'⟩
      · have hchain := Graph.vtableOf_error hv
        simp only [Graph.vtable, hchain]
      · obtain ⟨hv, hm'⟩ := Graph.vtableOf_ok hm hv
        have hrest : classLayouts g memo' (t + 1) (k + 1) ids =
            plainClassLayouts g (t + 1) (k + 1) ids := classLayouts_eq hm'
        rcases hplain : plainClassLayouts g (t + 1) (k + 1) ids with e | rest
        · simp only [hv.vtable_eq, hrest, hplain]
        · simp only [hv.vtable_eq, hrest, hplain]
    · exact classLayouts_eq hm

end Layout
end ClassCompiler
