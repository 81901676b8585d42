import ClassCompiler.Proofs.Hierarchy.Agreement
import ClassCompiler.Proofs.Hierarchy.Inheritance

/-!
# What a reported violation says

A violation names types and methods. `Graph.Breaks` says, without the passes
that report it, that these are there and break the rule that the violation is
about: the types are found under the names, the methods are declared in them or
in types that they extend, directly or through others, and what the rule asks of
them does not hold.

The rules are verified in four stages. A violation of one stage is reported only
if the graph obeys the rules of all stages before it.

Key definitions: `Graph.Breaks`, `Graph.Stage`, `Graph.Passes`, `Graph.Unmarked`.

Key theorems: `Graph.breaks_of_checkResolved`, `Graph.breaks_of_checkKinds`,
`Graph.breaks_of_checkAcyclic`, `Graph.breaks_of_checkMethods`, `Graph.verify_error_breaks`.
-/

namespace ClassCompiler
namespace Graph

/-! ### Violations without the passes -/

/-- The types of two names: the second is a parent of one kind of the first, and
the two do not fit. -/
def Misfits (g : Graph) (r : Relation) (child parent : String)
    (wrong : TypeNode → TypeNode → Prop) : Prop :=
  ∃ c p, g.find? child = some c ∧ g.find? parent = some p ∧ p ∈ (g.node c).related r ∧
    wrong (g.node c) (g.node p)

/-- The type of a name has a method of a signature, a type that it extends,
directly or through others, has the inherited method of the same signature, and
the first may not replace the second. -/
def Clashes (g : Graph) (owner : String) (s : Signature) (inherited : Method)
    (wrong : Method → Prop) : Prop :=
  ∃ c d, g.find? owner = some c ∧ Relation.TransGen g.Extends c d ∧
    inherited ∈ (g.node d).methods ∧ inherited.owner = (g.node d).name ∧ inherited.signature = s ∧
    ∃ m ∈ (g.node c).methods, m.signature = s ∧ wrong m

/-- What a violation says of the graph of some units. Of the rules for methods
that replace others, the one that is named is the first that the two methods
break. -/
def Breaks (g : Graph) (us : List CompilationUnit) : Violation → Prop
  | .unresolvedType name referencedBy =>
    name ∉ us.map (·.qualifiedName) ∧ referencedBy ∈ us.map (·.qualifiedName) ∧ referencedBy ≠ "" ∧
      ∃ c p, g.find? referencedBy = some c ∧ g.find? name = some p ∧ g.Parent c p
  | .classExtendsInterface child parent =>
    g.Misfits .extending child parent fun n p => n.isClass = true ∧ p.isInterface = true
  | .extendsFinalClass child parent =>
    g.Misfits .extending child parent fun n p =>
      n.isClass = true ∧ p.isClass = true ∧ p.isFinal = true
  | .interfaceExtendsClass child parent =>
    g.Misfits .extending child parent fun n p => n.isInterface = true ∧ p.isClass = true
  | .implementsClass child parent =>
    g.Misfits .implementing child parent fun n p => n.isClass = true ∧ p.isClass = true
  | .cycle name => ∃ id, g.find? name = some id ∧ Relation.TransGen g.Parent id id
  | .duplicateMethod owner s =>
    ∃ id, g.find? owner = some id ∧ 2 ≤ ((g.node id).methods.map (·.signature)).count s
  | .abstractMethodInConcreteClass owner s =>
    ∃ id, g.find? owner = some id ∧ (g.node id).isClass = true ∧ (g.node id).isAbstract = false ∧
      ∃ m ∈ (g.node id).methods, m.signature = s ∧ m.has .isAbstract = true
  | .returnTypeMismatch owner s o => g.Clashes owner s o fun m => o.returnType ≠ m.returnType
  | .instanceReplacesStatic owner s o =>
    g.Clashes owner s o fun m =>
      o.returnType = m.returnType ∧ o.has .isStatic = true ∧ m.has .isStatic = false
  | .staticReplacesInstance owner s o =>
    g.Clashes owner s o fun m =>
      o.returnType = m.returnType ∧ o.has .isStatic = false ∧ m.has .isStatic = true
  | .reducedVisibility owner s o =>
    g.Clashes owner s o fun m =>
      o.returnType = m.returnType ∧ o.has .isStatic = m.has .isStatic ∧
        o.has .isPublic = true ∧ m.has .isProtected = true
  | .replacesFinal owner s o =>
    g.Clashes owner s o fun m =>
      o.returnType = m.returnType ∧ o.has .isStatic = m.has .isStatic ∧
        ¬ (o.has .isPublic = true ∧ m.has .isProtected = true) ∧ o.has .isFinal = true
  | .duplicateType _ | .duplicateParent .. => False

/-! ### Stages -/

/-- The stages of verification, in order. -/
inductive Stage where
  | resolution | kinds | cycles | methods
deriving DecidableEq

namespace Stage

def earlier : Stage → List Stage
  | .resolution => []
  | .kinds => [.resolution]
  | .cycles => [.resolution, .kinds]
  | .methods => [.resolution, .kinds, .cycles]

theorem earlier_subset {s s' : Stage} (h : s' ∈ s.earlier) : s'.earlier ⊆ s.earlier := by
  cases s <;> cases s' <;> revert h <;> decide

/-- The stage that a violation belongs to. Types and parents that are named
twice come to light when they are declared. -/
def ofViolation? : Violation → Option Stage
  | .duplicateType _ | .duplicateParent .. => none
  | .unresolvedType .. => some .resolution
  | .classExtendsInterface .. | .extendsFinalClass .. | .interfaceExtendsClass ..
  | .implementsClass .. => some .kinds
  | .cycle _ => some .cycles
  | .duplicateMethod .. | .abstractMethodInConcreteClass .. | .returnTypeMismatch ..
  | .instanceReplacesStatic .. | .staticReplacesInstance .. | .reducedVisibility ..
  | .replacesFinal .. => some .methods

end Stage

variable {g g' : Graph} {us : List CompilationUnit} {v : Violation} {child : Nat}

/-- The graph obeys the rules of a stage. -/
def Passes (g : Graph) (allowUnresolved : Bool) : Stage → Prop
  | .resolution => allowUnresolved = true ∨ ∀ id ∈ g.ids, (g.node id).isPlaceholder = false
  | .kinds => ∀ c ∈ g.ids, g.RightKinds c
  | .cycles => ∀ c ∈ g.ids, ¬ Relation.TransGen g.Parent c c
  | .methods => ∀ c ∈ g.ids, g.MethodsLawful c

/-! ### Checks that fail -/

theorem checkEach_eq_error {α : Type} {check : α → Except Violation Unit} : ∀ {as : List α},
    checkEach check as = .error v → ∃ a ∈ as, check a = .error v
  | [], h => by cases h
  | a :: as, h => by
    rw [checkEach] at h
    rcases ha : check a with v' | _
    · simp only [ha] at h
      exact ⟨a, List.mem_cons_self, ha.trans h⟩
    · simp only [ha] at h
      obtain ⟨b, hb, hv⟩ := checkEach_eq_error h
      exact ⟨b, List.mem_cons_of_mem _ hb, hv⟩

theorem seq_eq_error {α : Type} {x : Except Violation Unit} {y : Except Violation α}
    (h : (x >>= fun _ => y) = .error v) : x = .error v ∨ (x = .ok () ∧ y = .error v) := by
  rcases x with v' | _
  · exact .inl (by simpa [bind, Except.bind] using h)
  · exact .inr ⟨rfl, h⟩

/-! ### Resolution -/

theorem qualifiedName_ne_empty {u : CompilationUnit} (h : Text.isBlank u.decl.name = false) :
    u.qualifiedName ≠ "" := by
  have hname : u.decl.name ≠ "" := by
    intro he
    rw [he] at h
    cases h
  rw [CompilationUnit.qualifiedName, Text.qualify]
  split
  · exact hname
  · intro he
    have := congrArg String.length he
    simp at this

/-- A type that has a parent is declared. -/
theorem Represents.exists_unit (hr : g.Represents us) {c p : Nat} (hc : c ∈ g.ids) (hp : g.Parent c p) :
    ∃ u ∈ us, u.Describes (g.node c) := by
  refine hr.declared c hc ?_
  rcases hph : (g.node c).isPlaceholder
  · rfl
  · rw [Parent, (hr.sound.placeholder hc hph).1] at hp
    cases hp

theorem breaks_of_checkResolved (hr : g.Represents us)
    (hnames : ∀ u ∈ us, Text.isBlank u.decl.name = false) (h : g.checkResolved = .error v) :
    g.Breaks us v ∧ Stage.ofViolation? v = some .resolution := by
  unfold checkResolved at h
  rcases hps : g.placeholders with _ | ⟨p, ps⟩
  · rw [hps] at h
    cases h
  obtain ⟨hp, hph⟩ : p ∈ g.ids ∧ (g.node p).isPlaceholder = true := by
    have : p ∈ g.placeholders := hps ▸ List.mem_cons_self
    simpa [placeholders] using this
  rcases hcs : (g.node p).children with _ | ⟨c, cs⟩
  · exact absurd hcs (hr.used hp hph)
  simp only [hps, hcs] at h
  obtain rfl := Except.error.inj h
  have hchild : c ∈ (g.node p).children := hcs ▸ List.mem_cons_self
  have hc := hr.sound.child_mem hp hchild
  have hparent : g.Parent c p := (hr.sound.mem_children hp hc).mp hchild
  obtain ⟨u, hu, hdesc⟩ := hr.exists_unit hc hparent
  refine ⟨⟨fun hmem => ?_, ?_, ?_, c, p, hr.sound.find?_name hc, hr.sound.find?_name hp, hparent⟩, rfl⟩
  · -- a unit of that name would have entered its own type
    obtain ⟨t, ht, hname⟩ := List.mem_map.mp hmem
    obtain ⟨id, hid, htdesc⟩ := hr.entered t ht
    obtain rfl := hr.sound.name_inj hid hp (htdesc.name.trans hname)
    cases hph.symm.trans htdesc.isPlaceholder
  · exact List.mem_map.mpr ⟨u, hu, hdesc.name.symm⟩
  · rw [hdesc.name]
    exact qualifiedName_ne_empty (hnames u hu)

/-! ### Kinds -/

/-- No type has modifiers before it is declared. -/
def Unmarked (g : Graph) : Prop :=
  ∀ id, (g.node id).isPlaceholder = true → (g.node id).modifiers = []

namespace Unmarked

theorem of_bare (h : g.Unmarked) (hb : ∀ id, (g'.node id).bare = (g.node id).bare) : g'.Unmarked := by
  intro id hph
  have hmodifiers : (g'.node id).modifiers = (g.node id).modifiers :=
    congrArg (·.modifiers) (hb id)
  rw [hmodifiers]
  exact h id (TypeNode.isPlaceholder_eq (hb id) ▸ hph)

theorem fetches {p : Graph × TypeId} (h : g.Unmarked) (hf : g.Fetches p) : p.1.Unmarked := by
  cases hf with
  | found => exact h
  | @added name _ =>
    intro id hph
    show ((g.addPlaceholder name).node id).modifiers = []
    rw [node_addPlaceholder] at hph ⊢
    by_cases hid : id = g.nodes.length
    · rw [if_pos hid]
      rfl
    · rw [if_neg hid] at hph ⊢
      exact h id hph

theorem modify (h : g.Unmarked) {f : TypeNode → TypeNode} (hc : child < g.nodes.length)
    (hd : (f (g.node child)).isPlaceholder = false) : (g.modify child f).Unmarked := by
  intro id hph
  rw [node_modify _ _ _ _ hc] at hph ⊢
  by_cases hid : id = child
  · rw [if_pos hid] at hph
    cases hd.symm.trans hph
  · rw [if_neg hid] at hph ⊢
    exact h id hph

theorem fold (h : g.Unmarked) (hb : g.Building child []) (hf : g.fold child = (g', .ok ())) :
    g'.Unmarked := by
  rcases hs : g.standIn? child with _ | old
  · simp only [Graph.fold, hs] at hf
    rwa [← (Prod.mk.inj hf).1]
  · have hfoldable := hb.sound.foldable hb.mem hb.declared hb.parents_nil hs
    exact h.of_bare (fold_ok hs hfoldable hf).2.bare

theorem linkAll : ∀ {rest ps : List (Relation × String)} {g g' : Graph}, g.Unmarked →
    g.Building child ps → g.linkAll child rest = (g', .ok ()) → g'.Unmarked
  | [], _, g, g', h, _, hl => by
    rwa [← (Prod.mk.inj hl).1]
  | (r, name) :: rest, ps, g, g', h, hb, hl => by
    rw [Graph.linkAll] at hl
    split at hl
    · cases (Prod.mk.inj hl).2
    · rename_i g₁ h₁
      obtain ⟨hb', -, -⟩ := hb.link h₁
      refine linkAll ?_ hb' hl
      obtain ⟨g₂, parent, hresolve, -, rfl⟩ := link_ok h₁
      have hf : g.Fetches (g₂, parent) := hresolve ▸ g.fetches_resolve child name
      have hclt := (mem_ids.mp (hf.mem_ids hb.mem)).1
      have hplt := (mem_ids.mp (hf.sound hb.sound).2).1
      exact (h.fetches hf).of_bare fun id => bare_connect hclt hplt id

theorem declare (h : g.Unmarked) (hg : g.Sound) (hu : g.Used) {u : CompilationUnit} {id : Nat}
    (hd : g.declare u = (g', .ok id)) : g'.Unmarked := by
  obtain ⟨g₁, g₂, g₃, hfetch, hph, hfold, hlink, rfl⟩ := declare_stages hd
  have hf : g.Fetches (g₁, id) := hfetch ▸ g.fetches_fetch _
  have hlt := (mem_ids.mp (hf.sound hg).2).1
  have hb := building_describe hg hu hfetch hph
  have h₁ : (g₁.modify id (describe u)).Unmarked := (h.fetches hf).modify hlt (by rfl)
  have hb₂ := (hb.fold hfold).1
  have hb₃ := (hb₂.linkAll hlink).1
  exact ((h₁.fold hb hfold).linkAll hb₂ hlink).modify (mem_ids.mp hb₃.mem).1 hb₃.declared

theorem declareAll : ∀ {us vs : List CompilationUnit} {g g' : Graph}, g.Unmarked → g.Represents vs →
    g.declareAll us = (g', .ok ()) → g'.Unmarked
  | [], _, g, g', h, _, hd => by
    rwa [← (Prod.mk.inj hd).1]
  | u :: us, vs, g, g', h, hr, hd => by
    rw [Graph.declareAll] at hd
    split at hd
    · cases (Prod.mk.inj hd).2
    · rename_i g₁ id h₁
      exact declareAll (h.declare hr.sound hr.used h₁) (hr.declare h₁) hd

end Unmarked

theorem checkExtended_eq_error {n p : TypeNode} (h : checkExtended n p = .error v) :
    (v = .classExtendsInterface n.name p.name ∧ n.isClass = true ∧ p.isInterface = true) ∨
    (v = .extendsFinalClass n.name p.name ∧ n.isClass = true ∧ p.isInterface = false ∧
      p.isFinal = true) ∨
    (v = .interfaceExtendsClass n.name p.name ∧ n.isInterface = true ∧ p.isClass = true) := by
  unfold checkExtended at h
  split at h
  · rename_i hn
    split at h
    · exact .inl ⟨(Except.error.inj h).symm, hn, ‹_›⟩
    · rename_i hi
      split at h
      · exact .inr (.inl ⟨(Except.error.inj h).symm, hn, by simpa using hi, ‹_›⟩)
      · cases h
  · split at h
    · rename_i hi
      simp only [Bool.and_eq_true] at hi
      exact .inr (.inr ⟨(Except.error.inj h).symm, hi⟩)
    · cases h

theorem checkImplemented_eq_error {n p : TypeNode} (h : checkImplemented n p = .error v) :
    v = .implementsClass n.name p.name ∧ p.isClass = true := by
  unfold checkImplemented at h
  split at h
  · exact ⟨(Except.error.inj h).symm, ‹_›⟩
  · cases h

theorem isClass_of_declared {n : TypeNode} (hd : n.isPlaceholder = false) (hi : n.isInterface = false) :
    n.isClass = true := by
  unfold TypeNode.isPlaceholder at hd
  unfold TypeNode.isInterface at hi
  unfold TypeNode.isClass
  rcases hk : n.kind with _ | _ | _
  · simp [hk] at hd
  · rfl
  · simp [hk] at hi

/-- A final type is declared. -/
theorem Unmarked.isPlaceholder_of_isFinal (h : g.Unmarked) {id : Nat}
    (hf : (g.node id).isFinal = true) : (g.node id).isPlaceholder = false := by
  rcases hph : (g.node id).isPlaceholder
  · rfl
  · rw [TypeNode.isFinal, h id hph] at hf
    cases hf

theorem breaks_of_checkKinds (hr : g.Represents us) (hm : g.Unmarked)
    (h : g.checkKinds = .error v) : g.Breaks us v ∧ Stage.ofViolation? v = some .kinds := by
  obtain ⟨c, hc, hcheck⟩ := checkEach_eq_error h
  obtain ⟨hc, hd⟩ := List.mem_filter.mp hc
  have hchild := hr.sound.find?_name hc
  have hparent : ∀ {r : Relation} {p : Nat}, p ∈ (g.node c).related r →
      g.find? (g.node p).name = some p := fun hp =>
    hr.sound.find?_name (hr.sound.parent_mem hc (mem_parents_iff.mpr ⟨_, hp⟩))
  unfold checkParents at hcheck
  rcases seq_eq_error hcheck with hext | ⟨-, himp⟩
  · obtain ⟨p, hp, hfail⟩ := checkEach_eq_error hext
    have hfound := hparent (r := .extending) hp
    rcases checkExtended_eq_error hfail with ⟨rfl, hn, hi⟩ | ⟨rfl, hn, hi, hf⟩ | ⟨rfl, hn, hi⟩
    · exact ⟨⟨c, p, hchild, hfound, hp, hn, hi⟩, rfl⟩
    · have hclass := isClass_of_declared (hm.isPlaceholder_of_isFinal hf) hi
      exact ⟨⟨c, p, hchild, hfound, hp, hn, hclass, hf⟩, rfl⟩
    · exact ⟨⟨c, p, hchild, hfound, hp, hn, hi⟩, rfl⟩
  · obtain ⟨p, hp, hfail⟩ := checkEach_eq_error himp
    obtain ⟨rfl, hi⟩ := checkImplemented_eq_error hfail
    -- only classes have an implements clause
    have hn : (g.node c).isInterface = false := by
      obtain ⟨u, -, hdesc⟩ := hr.declared c hc (by simpa using hd)
      rcases hn : (g.node c).isInterface
      · rfl
      · rw [hdesc.implemented_eq hn] at hp
        cases hp
    have hclass := isClass_of_declared (by simpa using hd) hn
    exact ⟨⟨c, p, hchild, hparent (r := .implementing) hp, hp, hclass, hi⟩, rfl⟩

/-! ### Cycles -/

theorem breaks_of_checkAcyclic (hg : g.Sound) (h : g.checkAcyclic = .error v) :
    g.Breaks us v ∧ Stage.ofViolation? v = some .cycles := by
  obtain ⟨id, hid, rfl, hcycle⟩ := cycle_of_checkAcyclic hg h
  exact ⟨⟨id, hg.find?_name hid, hcycle⟩, rfl⟩

/-! ### Methods -/

theorem checkOwnMethods_eq_error {n : TypeNode} : ∀ {earlier ms : List Method},
    checkOwnMethods n earlier ms = .error v →
    (∃ m ∈ ms, v = .duplicateMethod n.name m.signature ∧
      2 ≤ ((earlier ++ ms).map (·.signature)).count m.signature) ∨
    ∃ m ∈ ms, v = .abstractMethodInConcreteClass n.name m.signature ∧ m.has .isAbstract = true ∧
      n.isAbstract = false ∧ n.isInterface = false
  | earlier, [], h => by cases h
  | earlier, m :: ms, h => by
    unfold checkOwnMethods at h
    by_cases he : earlier.any (fun o => o.signature = m.signature) = true
    · rw [if_pos he] at h
      simp only [List.any_eq_true, decide_eq_true_eq] at he
      obtain ⟨o, ho, hs⟩ := he
      have hbefore : 0 < (earlier.map (·.signature)).count m.signature :=
        List.count_pos_iff.mpr (List.mem_map.mpr ⟨o, ho, hs⟩)
      refine .inl ⟨m, List.mem_cons_self, (Except.error.inj h).symm, ?_⟩
      rw [List.map_append, List.count_append, List.map_cons, List.count_cons_self]
      omega
    rw [if_neg he] at h
    by_cases ha : (m.has .isAbstract && !(n.isAbstract || n.isInterface)) = true
    · rw [if_pos ha] at h
      simp only [Bool.and_eq_true, Bool.not_eq_true', Bool.or_eq_false_iff] at ha
      exact .inr ⟨m, List.mem_cons_self, (Except.error.inj h).symm, ha⟩
    · rw [if_neg ha] at h
      rcases checkOwnMethods_eq_error h with ⟨m', hm', hv, hcount⟩ | ⟨m', hm', hrest⟩
      · rw [List.append_assoc] at hcount
        exact .inl ⟨m', List.mem_cons_of_mem _ hm', hv, hcount⟩
      · exact .inr ⟨m', List.mem_cons_of_mem _ hm', hrest⟩

/-- Two methods of one signature that may not replace each other, and the first
rule that they break. -/
theorem breaks_of_checkReplacement {c d : Nat} {o m : Method}
    (hfound : g.find? (g.node c).name = some c) (hd : Relation.TransGen g.Extends c d)
    (ho : o ∈ (g.node d).methods) (howner : o.owner = (g.node d).name) (hm : m ∈ (g.node c).methods)
    (h : checkReplacement (g.node c) o m = .error v) :
    g.Breaks us v ∧ Stage.ofViolation? v = some .methods := by
  have clash : ∀ {wrong : Method → Prop}, o.signature = m.signature → wrong m →
      g.Clashes (g.node c).name m.signature o wrong := fun hs hw =>
    ⟨c, d, hfound, hd, ho, howner, hs, m, hm, rfl, hw⟩
  unfold checkReplacement at h
  split at h
  · cases h
  rename_i hs
  have hs : o.signature = m.signature := not_not.mp hs
  split at h
  · rename_i hret
    obtain rfl := Except.error.inj h
    exact ⟨clash hs hret, rfl⟩
  rename_i hret
  have hret : o.returnType = m.returnType := not_not.mp hret
  split at h
  · rename_i hstatic
    simp only [Bool.and_eq_true, Bool.not_eq_true'] at hstatic
    obtain rfl := Except.error.inj h
    exact ⟨clash hs ⟨hret, hstatic⟩, rfl⟩
  rename_i hstatic
  split at h
  · rename_i hstatic'
    simp only [Bool.and_eq_true, Bool.not_eq_true'] at hstatic'
    obtain rfl := Except.error.inj h
    exact ⟨clash hs ⟨hret, hstatic'⟩, rfl⟩
  rename_i hstatic'
  have hstatic : o.has .isStatic = m.has .isStatic := by
    rcases ho : o.has .isStatic <;> rcases hm : m.has .isStatic <;> simp_all
  split at h
  · rename_i hvisible
    simp only [Bool.and_eq_true] at hvisible
    obtain rfl := Except.error.inj h
    exact ⟨clash hs ⟨hret, hstatic, hvisible⟩, rfl⟩
  rename_i hvisible
  simp only [Bool.and_eq_true] at hvisible
  split at h
  · rename_i hfinal
    obtain rfl := Except.error.inj h
    exact ⟨clash hs ⟨hret, hstatic, hvisible, hfinal⟩, rfl⟩
  · cases h

theorem Sound.mem_of_transGen_extends (hg : g.Sound) {c d : Nat} (hc : c ∈ g.ids)
    (h : Relation.TransGen g.Extends c d) : d ∈ g.ids := by
  induction h with
  | single hp => exact hg.parent_mem hc (List.mem_append_left _ hp)
  | tail _ hp ih => exact hg.parent_mem ih (List.mem_append_left _ hp)

theorem breaks_of_checkMethods (hr : g.Represents us)
    (hacyclic : ∀ c ∈ g.ids, ¬ Relation.TransGen g.Parent c c) (h : g.checkMethods = .error v) :
    g.Breaks us v ∧ Stage.ofViolation? v = some .methods := by
  obtain ⟨c, hc, seen, hgood, hseen, hfail⟩ := exists_of_checkMethods hr.sound hr.owner hacyclic h
  have hfound := hr.sound.find?_name hc
  unfold checkMethodsAt at hfail
  rcases seq_eq_error hfail with hown | ⟨-, hrest⟩
  · rcases checkOwnMethods_eq_error hown with ⟨m, -, rfl, hcount⟩ | ⟨m, hm, rfl, habs, hn, hi⟩
    · exact ⟨⟨c, hfound, hcount⟩, rfl⟩
    · -- a type with methods is declared
      have hd : (g.node c).isPlaceholder = false := by
        rcases hph : (g.node c).isPlaceholder
        · rfl
        · rw [(hr.sound.placeholder hc hph).2] at hm
          cases hm
      exact ⟨⟨c, hfound, isClass_of_declared hd hi, hn, m, hm, rfl, habs⟩, rfl⟩
  · obtain ⟨o, ho, hrest⟩ := checkEach_eq_error hrest
    obtain ⟨m, hm, hfail⟩ := checkEach_eq_error hrest
    obtain ⟨p, hp, d, hpd, ho⟩ := (hgood.mem_inherited hr.sound hr.owner hseen).mp ho
    have hup : Relation.TransGen g.Extends c d := .head' hp hpd
    have hd : d ∈ g.ids := hr.sound.mem_of_transGen_extends hc hup
    exact breaks_of_checkReplacement hfound hup ho (hr.owner d hd o ho) hm hfail

/-! ### The whole verification -/

/-- The check of a stage. -/
def checkStage (g : Graph) (allowUnresolved : Bool) : Stage → Except Violation Unit
  | .resolution => if allowUnresolved then .ok () else g.checkResolved
  | .kinds => g.checkKinds
  | .cycles => g.checkAcyclic
  | .methods => g.checkMethods

/-- The first stage whose check fails decides. -/
theorem verify_eq_error {allowUnresolved : Bool} (h : g.verify allowUnresolved = .error v) :
    ∃ s : Stage, (∀ s' ∈ s.earlier, g.checkStage allowUnresolved s' = .ok ()) ∧
      g.checkStage allowUnresolved s = .error v := by
  have hseq : g.verify allowUnresolved = g.checkStage allowUnresolved .resolution >>= fun _ =>
      g.checkStage allowUnresolved .kinds >>= fun _ => g.checkStage allowUnresolved .cycles >>= fun _ =>
        g.checkStage allowUnresolved .methods := by
    cases allowUnresolved <;> rfl
  rw [hseq] at h
  rcases seq_eq_error h with h | ⟨h₁, h⟩
  · exact ⟨.resolution, by simp [Stage.earlier], h⟩
  rcases seq_eq_error h with h | ⟨h₂, h⟩
  · exact ⟨.kinds, by simp [Stage.earlier, h₁], h⟩
  rcases seq_eq_error h with h | ⟨h₃, h⟩
  · exact ⟨.cycles, by simp [Stage.earlier, h₁, h₂], h⟩
  · exact ⟨.methods, by simp [Stage.earlier, h₁, h₂, h₃], h⟩

section stages
variable (hr : g.Represents us) {allowUnresolved : Bool} {s : Stage}
  (hs : ∀ s' ∈ s.earlier, g.checkStage allowUnresolved s' = .ok ())
include hr hs

theorem checkStage_eq_ok : g.checkStage allowUnresolved s = .ok () ↔ g.Passes allowUnresolved s := by
  cases s with
  | resolution =>
    cases allowUnresolved with
    | false => simp [checkStage, Passes, checkResolved_eq_ok]
    | true => simp [checkStage, Passes]
  | kinds => exact checkKinds_eq_ok hr.sound
  | cycles => exact checkAcyclic_eq_ok hr.sound
  | methods =>
    have hacyclic := (checkAcyclic_eq_ok hr.sound).mp (hs .cycles (by decide))
    exact checkMethods_eq_ok hr.sound hr.owner hacyclic

theorem breaks_of_checkStage (hm : g.Unmarked) (hnames : ∀ u ∈ us, Text.isBlank u.decl.name = false)
    (h : g.checkStage allowUnresolved s = .error v) : g.Breaks us v ∧ Stage.ofViolation? v = some s := by
  cases s with
  | resolution =>
    cases allowUnresolved with
    | false => exact breaks_of_checkResolved hr hnames h
    | true => cases h
  | kinds => exact breaks_of_checkKinds hr hm h
  | cycles => exact breaks_of_checkAcyclic hr.sound h
  | methods =>
    have hacyclic := (checkAcyclic_eq_ok hr.sound).mp (hs .cycles (by decide))
    exact breaks_of_checkMethods hr hacyclic h

end stages

/-- What verification reports is so: the types and methods that a violation
names are there and break the rule that it is about, and the rules of all
earlier stages are kept. -/
theorem verify_error_breaks (us : List CompilationUnit) (g : Graph) (h : ofUnits us = .ok g)
    (allowUnresolved : Bool) (v : Violation) (hv : g.verify allowUnresolved = .error v) :
    g.Breaks us v ∧ ∃ s, Stage.ofViolation? v = some s ∧ ¬ g.Passes allowUnresolved s ∧
      ∀ s' ∈ s.earlier, g.Passes allowUnresolved s' := by
  have hdecl := ofUnits_eq_ok.mp h
  have hr := declareAll_represents hdecl
  have hunmarked : g.Unmarked :=
    Unmarked.declareAll (g := empty) (fun _ _ => rfl) represents_empty hdecl
  obtain ⟨t, hrun, -⟩ := exists_run_of_declareAll hdecl
  have hnames := Roster.not_isBlank_run? hrun
  obtain ⟨s, hs, hfail⟩ := verify_eq_error hv
  obtain ⟨hbreaks, hstage⟩ := breaks_of_checkStage hr hs hunmarked hnames hfail
  refine ⟨hbreaks, s, hstage, fun hpass => ?_, fun s' hs' => ?_⟩
  · cases hfail.symm.trans ((checkStage_eq_ok hr hs).mpr hpass)
  · have hs'' : ∀ t ∈ s'.earlier, g.checkStage allowUnresolved t = .ok () := fun t ht =>
      hs t (Stage.earlier_subset hs' ht)
    exact (checkStage_eq_ok hr hs'').mp (hs s' hs')

end Graph

/-- The methods that the violation names are two steps apart. -/
theorem replacingUnits_breaks : ∃ g s o, Graph.ofUnits (replacingUnits [.isFinal]) = .ok g ∧
    g.verify true = .error (.replacesFinal "A" s o) ∧ s = ⟨"m", []⟩ ∧ o.owner = "C" ∧
    g.Breaks (replacingUnits [.isFinal]) (.replacesFinal "A" s o) ∧ g.Passes true .cycles := by
  obtain ⟨hbreaks, stage, hstage, -, hearlier⟩ := Graph.verify_error_breaks
    (replacingUnits [.isFinal]) (Graph.empty.declareAll (replacingUnits [.isFinal])).1 rfl true
    (.replacesFinal "A" ⟨"m", []⟩ ⟨"C", ⟨"m", []⟩, none, [.isPublic, .isFinal]⟩) rfl
  obtain rfl : Graph.Stage.methods = stage := Option.some.inj hstage
  exact ⟨_, _, _, rfl, rfl, rfl, rfl, hbreaks, hearlier .cycles (by decide)⟩

end ClassCompiler
