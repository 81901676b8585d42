import ClassCompiler.Proofs.Dispatch.Subtypes

/-!
# Vtables

On a lawful graph a chain of superclasses passes no type twice, so that every
class has a vtable.

Since the methods of a lawful type have different signatures, the slots of a
class are those of its superclass, in their order, and then one for each method
that is not static and has a new signature. Hence no two slots have one
signature, and a signature has the same slot in all classes below.

Key definitions: `Layout.ClassOf`, `Layout.superVtable`.

Key theorems: `Vtable.signatures_extend`, `Graph.exists_vtable`, `Layout.Built.exists_classOf`,
`Layout.vtable_slots_stable`.
-/

namespace ClassCompiler

/-! ### Entries -/

theorem Method.has_ofDecl (owner : String) (decl : MethodDecl) (modifier : Modifier) :
    (ofDecl owner decl).has modifier = decl.has modifier := by
  rw [Method.has, MethodDecl.has, Bool.eq_iff_iff, List.contains_iff_mem, List.contains_iff_mem]
  exact Modifier.mem_setOf

section concat
variable {α : Type} [DecidableEq α] {a b : α} {l : List α}

/-- A list with an item at the end that it may have had before. -/
theorem mem_ite_concat : b ∈ (if a ∈ l then l else l ++ [a]) ↔ b ∈ l ∨ b = a := by
  split
  · rename_i ha
    exact ⟨.inl, fun h => h.elim id fun he => he ▸ ha⟩
  · rw [List.mem_append, List.mem_singleton]

theorem nodup_ite_concat (h : l.Nodup) : (if a ∈ l then l else l ++ [a]).Nodup := by
  split
  · exact h
  · rename_i ha
    exact h.append (List.nodup_singleton _) (by simpa using ha)

end concat

namespace Vtable

variable {vtable : List VtableEntry} {methods : List Method}

theorem nodup_install {new : VtableEntry} (h : (vtable.map (·.signature)).Nodup) :
    ((install vtable new).map (·.signature)).Nodup := by
  rw [signatures_install]
  exact nodup_ite_concat h

/-- Entries of different signatures: those that have no slot yet get one, in
their order, behind the slots that are there. -/
theorem signatures_foldl_install : ∀ {new vtable : List VtableEntry},
    (new.map (·.signature)).Nodup →
    (new.foldl install vtable).map (·.signature) = vtable.map (·.signature) ++
      (new.map (·.signature)).filter (· ∉ vtable.map (·.signature))
  | [], vtable, _ => by simp
  | e :: new, vtable, h => by
    obtain ⟨he, h⟩ := List.nodup_cons.mp h
    rw [List.foldl_cons, signatures_foldl_install h, signatures_install, List.map_cons]
    by_cases hmem : e.signature ∈ vtable.map (·.signature)
    · rw [if_pos hmem, List.filter_cons_of_neg (by simpa using hmem)]
    · rw [if_neg hmem, List.filter_cons_of_pos (by simpa using hmem), List.append_assoc,
        List.singleton_append]
      congr 2
      refine List.filter_congr fun s hs => ?_
      have hne : s ≠ e.signature := by
        rintro rfl
        exact he hs
      simp [hne]

theorem mem_install {new e : VtableEntry} : ∀ {vtable : List VtableEntry},
    (vtable.map (·.signature)).Nodup →
    (e ∈ install vtable new ↔ e = new ∨ e ∈ vtable ∧ e.signature ≠ new.signature)
  | [], _ => by simp [install]
  | old :: rest, h => by
    obtain ⟨hold, h⟩ := List.nodup_cons.mp h
    rw [install]
    split
    · rename_i hsig
      -- no other slot has the signature
      have hrest : ∀ e ∈ rest, e.signature ≠ new.signature :=
        fun e he hes => hold (List.mem_map.mpr ⟨e, he, hes.trans hsig.symm⟩)
      grind
    · rename_i hsig
      rw [List.mem_cons, mem_install h]
      grind

theorem mem_foldl_install {e : VtableEntry} : ∀ {new vtable : List VtableEntry},
    (new.map (·.signature)).Nodup → (vtable.map (·.signature)).Nodup →
    (e ∈ new.foldl install vtable ↔
      e ∈ new ∨ e ∈ vtable ∧ ∀ e' ∈ new, e'.signature ≠ e.signature)
  | [], vtable, _, _ => by simp
  | a :: new, vtable, h, hv => by
    obtain ⟨ha, h⟩ := List.nodup_cons.mp h
    have hkept : ∀ e' ∈ new, e'.signature ≠ a.signature :=
      fun e' he' hes => ha (List.mem_map.mpr ⟨e', he', hes⟩)
    rw [List.foldl_cons, mem_foldl_install h (nodup_install hv), mem_install hv]
    grind

/-- The methods that take part in a vtable. -/
theorem nodup_entries (h : (methods.map (·.signature)).Nodup) :
    (((methods.filter fun m => !m.has .isStatic).map entry).map (·.signature)).Nodup := by
  rw [List.map_map]
  exact h.sublist (List.filter_sublist.map _)

/-- A vtable with the methods of one more class: a new slot for each method
that is not static and whose signature had none. -/
theorem signatures_extend (h : (methods.map (·.signature)).Nodup) :
    (extend vtable methods).map (·.signature) = vtable.map (·.signature) ++
      (methods.filter fun m => !m.has .isStatic && m.signature ∉ vtable.map (·.signature)).map
        (·.signature) := by
  rw [extend, signatures_foldl_install (nodup_entries h), List.map_map, List.filter_map,
    List.filter_filter]
  congr 2
  refine List.filter_congr fun m _ => ?_
  exact Bool.and_comm _ _

theorem nodup_extend (h : (methods.map (·.signature)).Nodup) (hv : (vtable.map (·.signature)).Nodup) :
    ((extend vtable methods).map (·.signature)).Nodup := by
  rw [signatures_extend h]
  refine hv.append (h.sublist (List.filter_sublist.map _)) ?_
  intro s hs hnew
  obtain ⟨m, hm, rfl⟩ := List.mem_map.mp hnew
  simp only [List.mem_filter, Bool.and_eq_true, decide_eq_true_eq] at hm
  exact hm.2.2 hs

/-- The entries of one more class replace those of its signatures. -/
theorem mem_extend {e : VtableEntry} (h : (methods.map (·.signature)).Nodup)
    (hv : (vtable.map (·.signature)).Nodup) :
    e ∈ extend vtable methods ↔ (∃ m ∈ methods, m.has .isStatic = false ∧ e = entry m) ∨
      e ∈ vtable ∧ ∀ m ∈ methods, m.has .isStatic = false → m.signature ≠ e.signature := by
  have hentries : ∀ e, e ∈ (methods.filter fun m => !m.has .isStatic).map entry ↔
      ∃ m ∈ methods, m.has .isStatic = false ∧ e = entry m := by
    intro e
    simp only [List.mem_map, List.mem_filter, Bool.not_eq_true', and_assoc, eq_comm (a := e)]
  rw [extend, mem_foldl_install (nodup_entries h) hv, hentries]
  refine or_congr_right (and_congr_right fun _ => ⟨fun hall m hm hi => ?_, fun hall e' he' => ?_⟩)
  · exact hall (entry m) ((hentries _).mpr ⟨m, hm, hi, rfl⟩)
  · obtain ⟨m, hm, hi, rfl⟩ := (hentries e').mp he'
    exact hall m hm hi

end Vtable

namespace Graph

variable {g : Graph} {us : List CompilationUnit} {allowUnresolved : Bool}

/-- The superclass of a class is a class, unless no unit declares it. -/
theorem Lawful.isClass_superclass (hl : g.Lawful allowUnresolved) {c p : Nat} (hc : c ∈ g.ids)
    (hs : g.Superclass c p) (hp : (g.node p).isPlaceholder = false) : (g.node p).isClass = true := by
  obtain ⟨hi, -⟩ := (hl.kinds c hc).ofClass (isClass_of_superclass hs) p (extends_of_superclass hs)
  rcases hk : (g.node p).kind with _ | kind
  · simp [TypeNode.isPlaceholder, hk] at hp
  · cases kind with
    | ofClass => simp [TypeNode.isClass, hk]
    | ofInterface => simp [TypeNode.isInterface, hk] at hi

/-- Without cycles a chain of superclasses comes to an end. -/
theorem exists_superclassChain (hg : g.Sound)
    (hacyclic : ∀ c ∈ g.ids, ¬ Relation.TransGen g.Parent c c) :
    ∀ (depth : Nat) (path : List Nat) (id : Nat), path.Nodup → (∀ p ∈ path, p ∈ g.ids) →
      id ∈ g.ids → (∀ p ∈ path, Relation.TransGen g.Parent p id) →
      g.nodes.length < depth + path.length → ∃ chain, g.superclassChain depth path id = .ok chain
  | 0, path, _, hd, hp, _, _, hlt => by
    have := length_path_le hd hp
    omega
  | depth + 1, path, id, hd, hp, hid, hup, hlt => by
    have hpath : id ∉ path := fun h => hacyclic id hid (hup id h)
    rw [superclassChain, if_neg (by simpa using hpath)]
    rcases hs : g.superclass? id with _ | p
    · exact ⟨[id], rfl⟩
    · have hparent := parent_of_superclass hs
      obtain ⟨chain, hchain⟩ := exists_superclassChain hg hacyclic depth (id :: path) p
        (List.nodup_cons.mpr ⟨hpath, hd⟩) (List.forall_mem_cons.mpr ⟨hid, hp⟩)
        (hg.parent_mem hid hparent)
        (List.forall_mem_cons.mpr ⟨.single hparent, fun q hq => (hup q hq).tail hparent⟩)
        (by rw [List.length_cons]; omega)
      exact ⟨id :: chain, by simp only [hchain]⟩

theorem exists_vtable (hg : g.Sound) (hl : g.Lawful allowUnresolved) {id : Nat} (hid : id ∈ g.ids) :
    ∃ v, g.vtable id = .ok v := by
  obtain ⟨chain, hchain⟩ := exists_superclassChain hg hl.acyclic (g.nodes.length + 1) [] id
    List.nodup_nil nofun hid nofun (by simp)
  exact ⟨_, by rw [vtable, hchain]⟩

/-- The methods of a class are those that its unit declares. -/
theorem Represents.exists_classDecl (hr : g.Represents us) {id : Nat} (hid : id ∈ g.ids)
    (hclass : (g.node id).isClass = true) :
    ∃ u ∈ us, ∃ d : ClassDecl, u.decl = .ofClass d ∧ u.qualifiedName = (g.node id).name ∧
      (g.node id).methods = d.methods.map (.ofDecl u.qualifiedName) := by
  obtain ⟨u, hu, hdesc⟩ := hr.declared id hid (TypeNode.isPlaceholder_of_isClass hclass)
  have hmethods : (g.node id).methods = u.decl.methods u.qualifiedName := congrArg (·.methods) hdesc.bare
  rw [TypeNode.isClass, hdesc.kind, beq_iff_eq, Option.some.injEq] at hclass
  refine ⟨u, hu, ?_⟩
  rcases hdecl : u.decl with d | i
  · exact ⟨d, rfl, hdesc.name.symm, by rw [hmethods, hdecl]; rfl⟩
  · rw [hdecl] at hclass
    cases hclass

section lawful
variable (hg : g.Sound) (hl : g.Lawful allowUnresolved)
include hg hl

/-- No two slots of a vtable have one signature. -/
theorem HasVtable.nodup {id : Nat} {v : List VtableEntry} (h : g.HasVtable id v) (hid : id ∈ g.ids) :
    (v.map (·.signature)).Nodup := by
  induction h with
  | first => exact Vtable.nodup_extend (hl.own _ hid).distinct List.nodup_nil
  | extending h _ ih =>
    exact Vtable.nodup_extend (hl.own _ hid).distinct (ih (hg.parent_mem hid (parent_of_superclass h)))

/-- The slots of a class come first in all classes below. -/
theorem HasVtable.isPrefix {c d : Nat} {v w : List VtableEntry} (hv : g.HasVtable c v)
    (hw : g.HasVtable d w) (hd : d ∈ g.ids) (hup : Relation.ReflTransGen g.Superclass d c) :
    v.map (·.signature) <+: w.map (·.signature) := by
  induction hup using Relation.ReflTransGen.head_induction_on generalizing w with
  | refl => exact hv.unique hw ▸ List.prefix_refl _
  | head hs _ ih =>
    cases hw with
    | first h => cases h.symm.trans hs
    | extending h above =>
      obtain rfl := Option.some.inj (Eq.trans (Eq.symm hs) h)
      rw [Vtable.signatures_extend (hl.own _ hd).distinct]
      exact (ih above (hg.parent_mem hd (parent_of_superclass hs))).trans (List.prefix_append _ _)

end lawful
end Graph

/-- The slot of a signature is its place among the signatures. -/
theorem ClassLayout.slot?_eq (c : ClassLayout) (s : Signature) :
    c.slot? s = (c.vtable.map (·.signature)).findIdx? (· = s) := by
  rw [slot?, List.findIdx?_map]
  rfl

theorem ClassLayout.slot?_of_isPrefix {c d : ClassLayout} {s : Signature} {k : Nat}
    (h : c.vtable.map (·.signature) <+: d.vtable.map (·.signature)) (hc : c.slot? s = some k) :
    d.slot? s = some k := by
  obtain ⟨rest, hrest⟩ := h
  rw [slot?_eq] at hc ⊢
  rw [← hrest, List.findIdx?_append, hc]
  rfl

namespace Layout

variable {g : Graph} {us : List CompilationUnit} {ids : List TypeId} {l : Layout}
  {allowUnresolved : Bool}

/-! ### The classes of a layout -/

theorem getElem?_plainClassLayouts : ∀ {ids : List TypeId} {t k : Nat} {cs : List ClassLayout},
    plainClassLayouts g t k ids = .ok cs → ∀ {j : Nat} {c : ClassLayout}, cs[j]? = some c →
    c.classId = k + j ∧ ∃ i id, c.typeId = t + i ∧ ids[i]? = some id ∧
      (g.node id).isClass = true ∧ c.name = (g.node id).name ∧ g.vtable id = .ok c.vtable
  | [], _, _, _, h, j, c, hc => by
    cases h
    cases hc
  | id :: ids, t, k, cs, h, j, c, hc => by
    rw [plainClassLayouts] at h
    split at h
    · rename_i hclass
      split at h
      · cases h
      · rename_i vtable hvtable
        split at h
        · cases h
        · rename_i rest hrest
          cases h
          cases j with
          | zero =>
            cases hc
            exact ⟨rfl, 0, id, rfl, rfl, hclass, rfl, hvtable⟩
          | succ j =>
            obtain ⟨hk, i, id', ht, hid, hrest⟩ := getElem?_plainClassLayouts hrest hc
            exact ⟨by omega, i + 1, id', by omega, hid, hrest⟩
    · obtain ⟨hk, i, id', ht, hid, hrest⟩ := getElem?_plainClassLayouts h hc
      exact ⟨hk, i + 1, id', by omega, hid, hrest⟩

theorem names_plainClassLayouts : ∀ {ids : List TypeId} {t k : Nat} {cs : List ClassLayout},
    plainClassLayouts g t k ids = .ok cs →
    cs.map (·.name) = (ids.filter fun id => (g.node id).isClass).map fun id => (g.node id).name
  | [], _, _, _, h => by
    cases h
    rfl
  | id :: ids, t, k, cs, h => by
    rw [plainClassLayouts] at h
    split at h
    · rename_i hclass
      split at h
      · cases h
      · split at h
        · cases h
        · rename_i rest hrest
          cases h
          rw [List.filter_cons, if_pos hclass, List.map_cons, List.map_cons, names_plainClassLayouts hrest]
    · rename_i hclass
      rw [List.filter_cons, if_neg hclass, names_plainClassLayouts h]

/-- The classes among the types are those of the units that declare classes. -/
theorem names_typeIds : ∀ {us : List CompilationUnit} {ids : List TypeId},
    (∀ u ∈ us, ∀ id, g.find? u.qualifiedName = some id → u.Describes (g.node id)) →
    typeIds g us = .ok ids →
    (ids.filter fun id => (g.node id).isClass).map (fun id => (g.node id).name) =
      (us.filter fun u => u.decl.kind = .ofClass).map (·.qualifiedName)
  | [], _, _, hids => by
    cases hids
    rfl
  | u :: us, ids, h, hids => by
    obtain ⟨hu, h⟩ := List.forall_mem_cons.mp h
    rw [typeIds] at hids
    split at hids
    · cases hids
    · rename_i id hfind
      split at hids
      · cases hids
      · rename_i rest hrest
        cases hids
        have hdesc := hu id hfind
        have hkind : (g.node id).isClass = decide (u.decl.kind = .ofClass) := by
          rw [TypeNode.isClass, hdesc.kind]
          cases u.decl.kind <;> rfl
        rw [List.filter_cons, List.filter_cons, hkind]
        split
        · rw [List.map_cons, List.map_cons, hdesc.name, names_typeIds h hrest]
        · exact names_typeIds h hrest

theorem exists_plainClassLayouts : ∀ {ids : List TypeId} (t k : Nat),
    (∀ id ∈ ids, ∃ v, g.vtable id = .ok v) → ∃ cs, plainClassLayouts g t k ids = .ok cs
  | [], _, _, _ => ⟨[], rfl⟩
  | id :: ids, t, k, h => by
    obtain ⟨⟨v, hv⟩, h⟩ := List.forall_mem_cons.mp h
    obtain ⟨cs, hcs⟩ := exists_plainClassLayouts (t + 1) (k + 1) h
    obtain ⟨cs', hcs'⟩ := exists_plainClassLayouts (t + 1) k h
    rw [plainClassLayouts]
    split
    · exact ⟨_, by rw [hv, hcs]⟩
    · exact ⟨cs', hcs'⟩

/-- A lawful program has a layout. -/
theorem exists_ofGraph (hr : g.Represents us) (hl : g.Lawful allowUnresolved) :
    ∃ l ids, ofGraph g us = .ok l ∧ Built g us ids l := by
  obtain ⟨ids, hids⟩ := exists_typeIds fun u hu => by
    obtain ⟨id, -, hfind, -⟩ := hr.find?_qualifiedName hu
    exact ⟨id, hfind⟩
  obtain ⟨cs, hcs⟩ := exists_plainClassLayouts 0 0 fun id hid =>
    Graph.exists_vtable hr.sound hl ((mem_typeIds hr hids).mp hid).1
  obtain ⟨l, hok⟩ : ∃ l, ofGraph g us = .ok l := by simp [ofGraph, hids, classLayouts_eq (.nil g), hcs]
  obtain ⟨ids, h⟩ := built_of_ofGraph hok
  exact ⟨l, ids, hok, h⟩

/-- A class of a layout and its type in the graph. -/
structure ClassOf (g : Graph) (ids : List TypeId) (c : ClassLayout) (id : TypeId) : Prop where
  place : ids[c.typeId]? = some id
  live : id ∈ g.ids
  isClass : (g.node id).isClass = true
  find : g.find? c.name = some id
  vtable : g.HasVtable id c.vtable

namespace Built

variable (h : Built g us ids l) (hr : g.Represents us)
include h

theorem getElem?_classId {c : ClassLayout} (hc : c ∈ l.classes) : l.classes[c.classId]? = some c := by
  obtain ⟨j, hj⟩ := List.mem_iff_getElem?.mp hc
  obtain ⟨hk, -⟩ := getElem?_plainClassLayouts h.classes hj
  rwa [hk, Nat.zero_add]

include hr

theorem exists_classOf {c : ClassLayout} (hc : c ∈ l.classes) : ∃ id, ClassOf g ids c id := by
  obtain ⟨j, hj⟩ := List.mem_iff_getElem?.mp hc
  obtain ⟨-, i, id, ht, hid, hclass, hname, hvtable⟩ := getElem?_plainClassLayouts h.classes hj
  have hlive := ((mem_typeIds hr h.numbers).mp (List.mem_of_getElem? hid)).1
  refine ⟨id, ?_, hlive, hclass, ?_, Graph.hasVtable_of_vtable hvtable⟩
  · rwa [ht, Nat.zero_add]
  · rw [hname]
    exact hr.sound.find?_name hlive

theorem classOf {c : ClassLayout} (hc : c ∈ l.classes) {id : Nat} (hid : g.find? c.name = some id) :
    ClassOf g ids c id := by
  obtain ⟨id', hc⟩ := h.exists_classOf hr hc
  obtain rfl := Option.some.inj (hc.find.symm.trans hid)
  exact hc

/-- The classes of a layout are those of the units, in order. -/
theorem names_classes : l.classes.map (·.name) =
    (us.filter fun u => u.decl.kind = .ofClass).map (·.qualifiedName) := by
  rw [names_plainClassLayouts h.classes]
  refine names_typeIds (fun u hu id hid => ?_) h.numbers
  obtain ⟨id', -, hfind, hdesc⟩ := hr.find?_qualifiedName hu
  obtain rfl := Option.some.inj (hfind.symm.trans hid)
  exact hdesc

/-- The class of a type's name is that of the type. -/
theorem classOf_class? {id : Nat} (hid : id ∈ g.ids) {c : ClassLayout}
    (hc : l.class? (g.node id).name = some c) : ClassOf g ids c id := by
  have hname : c.name = (g.node id).name := by simpa using List.find?_some hc
  refine h.classOf hr (List.mem_of_find?_eq_some hc) ?_
  rw [hname]
  exact hr.sound.find?_name hid

theorem isSome_class? {id : Nat} (hid : id ∈ g.ids) (hclass : (g.node id).isClass = true) :
    (l.class? (g.node id).name).isSome = true := by
  have hmem : (g.node id).name ∈ l.classes.map (·.name) := by
    rw [names_plainClassLayouts h.classes]
    refine List.mem_map.mpr ⟨id, List.mem_filter.mpr ⟨?_, hclass⟩, rfl⟩
    exact (mem_typeIds hr h.numbers).mpr ⟨hid, TypeNode.isPlaceholder_of_isClass hclass⟩
  obtain ⟨c, hc, hname⟩ := List.mem_map.mp hmem
  exact List.find?_isSome.mpr ⟨c, hc, by simpa using hname⟩

end Built

/-! ### Slots -/

/-- The vtable of the class that a class extends, empty if it extends none or
a type that no unit declares. -/
def superVtable (l : Layout) (g : Graph) (id : TypeId) : List VtableEntry :=
  match g.superclass? id with
  | none => []
  | some p =>
    match l.class? (g.node p).name with
    | none => []
    | some b => b.vtable

section lawful
variable (h : Built g us ids l) (hr : g.Represents us) (hl : g.Lawful allowUnresolved)
include h hr hl

theorem Built.superVtable_eq {id p : Nat} {v : List VtableEntry} (hid : id ∈ g.ids)
    (hs : g.Superclass id p) (above : g.HasVtable p v) : l.superVtable g id = v := by
  have hp := hr.sound.parent_mem hid (Graph.parent_of_superclass hs)
  have hs' : g.superclass? id = some p := hs
  rcases hb : l.class? (g.node p).name with _ | b
  · -- no unit declares the superclass, which has no methods
    have hph : (g.node p).isPlaceholder = true := by
      by_contra hd
      have := h.isSome_class? hr hp (hl.isClass_superclass hid hs (by simpa using hd))
      simp [hb] at this
    obtain ⟨hparents, hmethods⟩ := hr.sound.placeholder hp hph
    simp only [superVtable, hs', hb]
    cases above with
    | first => rw [hmethods]; rfl
    | extending hq =>
      have := Graph.parent_of_superclass hq
      rw [Graph.Parent, hparents] at this
      cases this
  · simp only [superVtable, hs', hb]
    exact (h.classOf_class? hr hp hb).vtable.unique above

/-- The vtable of a class grows from that of its superclass. -/
theorem Built.vtable_eq {c : ClassLayout} {id : Nat} (hc : ClassOf g ids c id) :
    c.vtable = Vtable.extend (l.superVtable g id) (g.node id).methods := by
  rcases hs : g.superclass? id with _ | p
  · have hfirst := hc.vtable.unique (.first hs)
    simpa only [superVtable, hs] using hfirst
  · have hp := hr.sound.parent_mem hc.live (Graph.parent_of_superclass hs)
    obtain ⟨v, hv⟩ := Graph.exists_vtable hr.sound hl hp
    have above := Graph.hasVtable_of_vtable hv
    rw [h.superVtable_eq hr hl hc.live hs above]
    exact hc.vtable.unique (.extending hs above)

end lawful

/-- A signature has one slot in a class and the same slot in every class below,
and a class has one slot more than its superclass for each method that its unit
declares in it, is not static and has a new signature. -/
theorem vtable_slots_stable (us : List CompilationUnit) (allowUnresolved : Bool) (g : Graph)
    (h : check us allowUnresolved = .ok g) :
    ∃ l, ofGraph g us = .ok l ∧
      l.classes.map (·.name) = (us.filter fun u => u.decl.kind = .ofClass).map (·.qualifiedName) ∧
      (∀ c ∈ l.classes, (c.vtable.map (·.signature)).Nodup) ∧
      (∀ c ∈ l.classes, ∀ d ∈ l.classes, ∀ i j, g.find? c.name = some i → g.find? d.name = some j →
        Relation.ReflTransGen g.Superclass j i → ∀ s k, c.slot? s = some k → d.slot? s = some k) ∧
      ∀ c ∈ l.classes, ∃ i, g.find? c.name = some i ∧
        c.vtable.length = (l.superVtable g i).length +
          ((g.node i).methods.filter fun m =>
            !m.has .isStatic && m.signature ∉ (l.superVtable g i).map (·.signature)).length ∧
        ∃ u ∈ us, ∃ d : ClassDecl, u.decl = .ofClass d ∧ u.qualifiedName = c.name ∧
          c.vtable.length = (l.superVtable g i).length +
            (d.methods.filter fun m => !m.has .isStatic && (Method.ofDecl c.name m).signature ∉
              (l.superVtable g i).map (·.signature)).length := by
  obtain ⟨hr, hl⟩ := represents_of_check h
  obtain ⟨l, ids, hok, hb⟩ := exists_ofGraph hr hl
  refine ⟨l, hok, hb.names_classes hr, ?_, ?_, ?_⟩
  · intro c hc
    obtain ⟨id, hcof⟩ := hb.exists_classOf hr hc
    exact hcof.vtable.nodup hr.sound hl hcof.live
  · intro c hc d hd i j hi hj hup s k hk
    have hcof := hb.classOf hr hc hi
    have hdof := hb.classOf hr hd hj
    exact ClassLayout.slot?_of_isPrefix
      (hcof.vtable.isPrefix hr.sound hl hdof.vtable hdof.live hup) hk
  · intro c hc
    obtain ⟨i, hcof⟩ := hb.exists_classOf hr hc
    have hlength : c.vtable.length = (l.superVtable g i).length +
        ((g.node i).methods.filter fun m =>
          !m.has .isStatic && m.signature ∉ (l.superVtable g i).map (·.signature)).length := by
      rw [← List.length_map (·.signature), hb.vtable_eq hr hl hcof,
        Vtable.signatures_extend (hl.own i hcof.live).distinct, List.length_append, List.length_map,
        List.length_map]
    obtain ⟨u, hu, d, hd, hname, hmethods⟩ := hr.exists_classDecl hcof.live hcof.isClass
    have hclass : u.qualifiedName = c.name :=
      hname.trans (hr.sound.index.mp hcof.find).2
    refine ⟨i, hcof.find, hlength, u, hu, d, hd, hclass, ?_⟩
    rw [hlength, hmethods, hclass, List.filter_map, List.length_map]
    simp only [Function.comp_def, Method.has_ofDecl]

end Layout

/-- A class of the unnamed package with methods of no parameters. -/
def CompilationUnit.classDeclaring (name : String) (parent : Option String) (interfaces : List String)
    (methods : List (List Modifier × String)) : CompilationUnit :=
  of (.ofClass ⟨[.isAbstract], name, parent.map (⟨·, false, .zero⟩),
    interfaces.map (⟨·, false, .zero⟩),
    methods.map fun m => .method ⟨m.1, none, m.2, [], none, .zero⟩, .zero⟩)

/-- A class before its superclass, which extends a type that no unit declares. -/
def layeredUnits : List CompilationUnit :=
  [.classDeclaring "B" (some "A") [] [([], "h"), ([.isAbstract], "g")],
    .classDeclaring "A" (some "Elsewhere") [] [([], "f"), ([.isStatic], "s"), ([], "g")]]

theorem layeredUnits_slots : ∃ g l, check layeredUnits true = .ok g ∧
    Layout.ofGraph g layeredUnits = .ok l ∧ l.classes.map (·.name) = ["B", "A"] ∧
    ∀ a ∈ l.classes, a.name = "A" → ∀ b ∈ l.classes, b.name = "B" → ∀ s k,
      a.slot? s = some k → b.slot? s = some k := by
  obtain ⟨l, hok, hnames, -, hslots, -⟩ := Layout.vtable_slots_stable layeredUnits true
    (Graph.empty.declareAll layeredUnits).1 rfl
  refine ⟨_, l, rfl, hok, hnames, ?_⟩
  intro a ha han b hb hbn
  refine hslots a ha b hb 1 0 ?_ ?_ (.single rfl)
  · rw [han]
    rfl
  · rw [hbn]
    rfl

end ClassCompiler
