import ClassCompiler.Check
import ClassCompiler.Proofs.Hierarchy.Agreement
import ClassCompiler.Proofs.Hierarchy.Inheritance

/-!
# Graphs that are equal by name

Two graphs say the same of a program if they have the same live names and, for
each name, the same type up to the numbers of its parents and children. Rules
of the hierarchy carry over between such graphs, and two runs that end in the
same entries build them. Where modifiers of types and children do not count,
graphs of the same shapes are enough.

Key definitions: `Graph.SameType`, `Graph.SameByName`, `Graph.SameShapes`.

Key theorems: `Graph.SameByName.lawful`, `Graph.Agrees.sameByName`,
`check_eq_ok`.
-/

namespace ClassCompiler
namespace Graph

variable {g g' : Graph}

/-- Two types of the same data with the same parents, in order, and the same
children, by name. -/
structure SameType (g g' : Graph) (id id' : Nat) : Prop where
  kind : (g.node id).kind = (g'.node id').kind
  modifiers : (g.node id).modifiers = (g'.node id').modifiers
  methods : (g.node id).methods = (g'.node id').methods
  extended : (g.node id).extended.map (fun p => (g.node p).name) =
    (g'.node id').extended.map fun p => (g'.node p).name
  implemented : (g.node id).implemented.map (fun p => (g.node p).name) =
    (g'.node id').implemented.map fun p => (g'.node p).name
  children : ∀ name, name ∈ (g.node id).children.map (fun c => (g.node c).name) ↔
    name ∈ (g'.node id').children.map fun c => (g'.node c).name

/-- The same live names, and the same type for each. -/
structure SameByName (g g' : Graph) : Prop where
  live : ∀ name, name ∈ g.ids.map (fun id => (g.node id).name) ↔
    name ∈ g'.ids.map fun id => (g'.node id).name
  types : ∀ id ∈ g.ids, ∀ id' ∈ g'.ids, (g.node id).name = (g'.node id').name → g.SameType g' id id'

/-- Two types of one kind with the same methods and the same parents, in order,
by name. -/
structure SameShape (g g' : Graph) (id id' : Nat) : Prop where
  kind : (g.node id).kind = (g'.node id').kind
  methods : (g.node id).methods = (g'.node id').methods
  extended : (g.node id).extended.map (fun p => (g.node p).name) =
    (g'.node id').extended.map fun p => (g'.node p).name
  implemented : (g.node id).implemented.map (fun p => (g.node p).name) =
    (g'.node id').implemented.map fun p => (g'.node p).name

theorem sameShape_iff {id id' : Nat} : g.SameShape g' id id' ↔
    (g.node id).kind = (g'.node id').kind ∧ (g.node id).methods = (g'.node id').methods ∧
    (g.node id).extended.map (fun p => (g.node p).name) =
      (g'.node id').extended.map (fun p => (g'.node p).name) ∧
    (g.node id).implemented.map (fun p => (g.node p).name) =
      (g'.node id').implemented.map fun p => (g'.node p).name :=
  ⟨fun h => ⟨h.kind, h.methods, h.extended, h.implemented⟩,
    fun h => ⟨h.1, h.2.1, h.2.2.1, h.2.2.2⟩⟩

instance (id id' : Nat) : Decidable (g.SameShape g' id id') := decidable_of_iff _ sameShape_iff.symm

/-- The same live names, and types of one shape for each. -/
structure SameShapes (g g' : Graph) : Prop where
  live : ∀ name, name ∈ g.ids.map (fun id => (g.node id).name) ↔
    name ∈ g'.ids.map fun id => (g'.node id).name
  types : ∀ id ∈ g.ids, ∀ id' ∈ g'.ids, (g.node id).name = (g'.node id').name → g.SameShape g' id id'

theorem SameByName.sameShapes (h : g.SameByName g') : g.SameShapes g' := by
  refine ⟨h.live, fun id hid id' hid' hname => ?_⟩
  have htype := h.types id hid id' hid' hname
  exact ⟨htype.kind, htype.methods, htype.extended, htype.implemented⟩

namespace SameShapes

variable (h : g.SameShapes g') (hg : g.Sound) (hg' : g'.Sound)

theorem symm (h : g.SameShapes g') : g'.SameShapes g := by
  refine ⟨fun name => (h.live name).symm, fun id' hid' id hid hname => ?_⟩
  have hshape := h.types id hid id' hid' hname.symm
  exact ⟨hshape.kind.symm, hshape.methods.symm, hshape.extended.symm, hshape.implemented.symm⟩

/-- Types of two graphs with the same name. -/
def Match (g g' : Graph) (id id' : Nat) : Prop :=
  id ∈ g.ids ∧ id' ∈ g'.ids ∧ (g.node id).name = (g'.node id').name

include h in
theorem exists_match {id' : Nat} (hid' : id' ∈ g'.ids) : ∃ id, Match g g' id id' := by
  have := (h.live (g'.node id').name).mpr (List.mem_map_of_mem hid')
  obtain ⟨id, hid, hname⟩ := List.mem_map.mp this
  exact ⟨id, hid, hid', hname⟩

include h hg hg'

theorem exists_extends {c c' p' : Nat} (hm : Match g g' c c') (hp : g'.Extends c' p') :
    ∃ p, Match g g' p p' ∧ g.Extends c p := by
  obtain ⟨hc, hc', hname⟩ := hm
  have hin : (g'.node p').name ∈ (g'.node c').extended.map fun p => (g'.node p).name :=
    List.mem_map_of_mem hp
  rw [← (h.types c hc c' hc' hname).extended] at hin
  obtain ⟨p, hp₁, hpn⟩ := List.mem_map.mp hin
  exact ⟨p, ⟨hg.parent_mem hc (List.mem_append_left _ hp₁),
    hg'.parent_mem hc' (List.mem_append_left _ hp), hpn⟩, hp₁⟩

theorem exists_implemented {c c' p' : Nat} (hm : Match g g' c c')
    (hp : p' ∈ (g'.node c').implemented) : ∃ p, Match g g' p p' ∧ p ∈ (g.node c).implemented := by
  obtain ⟨hc, hc', hname⟩ := hm
  have hin : (g'.node p').name ∈ (g'.node c').implemented.map fun p => (g'.node p).name :=
    List.mem_map_of_mem hp
  rw [← (h.types c hc c' hc' hname).implemented] at hin
  obtain ⟨p, hp₁, hpn⟩ := List.mem_map.mp hin
  exact ⟨p, ⟨hg.parent_mem hc (List.mem_append_right _ hp₁),
    hg'.parent_mem hc' (List.mem_append_right _ hp), hpn⟩, hp₁⟩

theorem exists_parent {c c' p' : Nat} (hm : Match g g' c c') (hp : g'.Parent c' p') :
    ∃ p, Match g g' p p' ∧ g.Parent c p := by
  rcases List.mem_append.mp hp with hp | hp
  · obtain ⟨p, hm', hp'⟩ := h.exists_extends hg hg' hm hp
    exact ⟨p, hm', List.mem_append_left _ hp'⟩
  · obtain ⟨p, hm', hp'⟩ := h.exists_implemented hg hg' hm hp
    exact ⟨p, hm', List.mem_append_right _ hp'⟩

end SameShapes

/-- Chains of edges carry over with the edges. -/
theorem exists_transGen {α β : Type} {m : α → β → Prop} {r : α → α → Prop} {r' : β → β → Prop}
    {a : α} {a' b' : β} (hm : m a a') (h : Relation.TransGen r' a' b')
    (hstep : ∀ {a a' b'}, m a a' → r' a' b' → ∃ b, m b b' ∧ r a b) :
    ∃ b, m b b' ∧ Relation.TransGen r a b := by
  induction h with
  | single h =>
    obtain ⟨b, hb, hr⟩ := hstep hm h
    exact ⟨b, hb, .single hr⟩
  | tail _ h ih =>
    obtain ⟨b, hb, hr⟩ := ih
    obtain ⟨c, hc, hr'⟩ := hstep hb h
    exact ⟨c, hc, .tail hr hr'⟩

theorem SameType.isClass {id id' : Nat} (h : g.SameType g' id id') :
    (g'.node id').isClass = (g.node id).isClass := by
  rw [TypeNode.isClass, TypeNode.isClass, h.kind]

theorem SameType.isInterface {id id' : Nat} (h : g.SameType g' id id') :
    (g'.node id').isInterface = (g.node id).isInterface := by
  rw [TypeNode.isInterface, TypeNode.isInterface, h.kind]

/-- Graphs that are equal by name obey the same rules. -/
theorem SameByName.lawful (h : g.SameByName g') (hg : g.Sound) (hg' : g'.Sound)
    {allowUnresolved : Bool} (hl : g.Lawful allowUnresolved) : g'.Lawful allowUnresolved := by
  have hshapes := h.sameShapes
  have hsame : ∀ {id id'}, SameShapes.Match g g' id id' → g.SameType g' id id' :=
    fun hm => h.types _ hm.1 _ hm.2.1 hm.2.2
  refine ⟨hl.resolved.imp_right fun hr c' hc' => ?_, fun c' hc' => ?_, fun c' hc' hcycle => ?_,
    fun c' hc' => ?_, fun c' hc' d' hd' => ?_⟩ <;> obtain ⟨c, hm⟩ := hshapes.exists_match hc'
  · have := hr c hm.1
    rwa [TypeNode.isPlaceholder, ← (hsame hm).kind]
  · obtain ⟨hclass, hint, himp⟩ := hl.kinds c hm.1
    refine ⟨fun hk p' hp' => ?_, fun hk p' hp' => ?_, fun p' hp' => ?_⟩
    · obtain ⟨p, hmp, hp⟩ := hshapes.exists_extends hg hg' hm hp'
      rw [(hsame hm).isClass] at hk
      rw [(hsame hmp).isInterface, TypeNode.isFinal, ← (hsame hmp).modifiers]
      exact hclass hk p hp
    · obtain ⟨p, hmp, hp⟩ := hshapes.exists_extends hg hg' hm hp'
      rw [(hsame hm).isInterface] at hk
      rw [(hsame hmp).isClass]
      exact hint hk p hp
    · obtain ⟨p, hmp, hp⟩ := hshapes.exists_implemented hg hg' hm hp'
      rw [(hsame hmp).isClass]
      exact himp p hp
  · obtain ⟨d, hmd, hd⟩ := exists_transGen hm hcycle (hshapes.exists_parent hg hg')
    obtain rfl := hg.name_inj hm.1 hmd.1 (hm.2.2.trans hmd.2.2.symm)
    exact hl.acyclic c hm.1 hd
  · obtain ⟨hdistinct, hconcrete⟩ := hl.own c hm.1
    refine ⟨(hsame hm).methods ▸ hdistinct, ?_⟩
    rw [← (hsame hm).methods, TypeNode.isAbstract, ← (hsame hm).modifiers, (hsame hm).isInterface]
    exact hconcrete
  · obtain ⟨d, hmd, hd⟩ := exists_transGen hm hd' (hshapes.exists_extends hg hg')
    rw [← (hsame hm).methods, ← (hsame hmd).methods]
    exact hl.replaced c hm.1 d hd

/-- Lists of pairs are equal if their keys are, and the values of each key. -/
theorem eq_of_filter_fst {α β : Type} [DecidableEq α] : ∀ {l l' : List (α × β)},
    l.map (·.1) = l'.map (·.1) →
    (∀ a, (l.filter (·.1 = a)).map (·.2) = (l'.filter (·.1 = a)).map (·.2)) → l = l'
  | [], [], _, _ => rfl
  | (a, b) :: l, (a', b') :: l', hkeys, hvalues => by
    simp only [List.map_cons, List.cons.injEq] at hkeys
    obtain ⟨rfl, hkeys⟩ := hkeys
    have hhead := hvalues a
    simp only [List.filter_cons, decide_true, if_true, List.map_cons, List.cons.injEq] at hhead
    obtain ⟨rfl, -⟩ := hhead
    have hrest : ∀ c, (l.filter (·.1 = c)).map (·.2) = (l'.filter (·.1 = c)).map (·.2) := by
      intro c
      have := hvalues c
      by_cases hc : a = c
      · simpa [hc] using this
      · simpa [hc] using this
    rw [eq_of_filter_fst hkeys hrest]

namespace Agrees

variable {t t' : Roster} {us us' : List CompilationUnit}

theorem closed (h : g.Agrees t) (hr : ∀ id ∈ g.ids, (g.node id).isPlaceholder = false) : t.Closed := by
  intro x hx
  have hknown := h.knows_eq x
  rw [Roster.knows_iff.mpr (.inr hx)] at hknown
  obtain ⟨id, hid⟩ := Option.isSome_iff_exists.mp hknown.symm
  obtain ⟨hmem, rfl⟩ := h.sound.index.mp hid
  exact (h.declares_iff hmem).mpr (hr id hmem)

/-- In a graph without cycles no unit is its own parent. -/
theorem not_names_self (h : g.Agrees t) (ha : ∀ c ∈ g.ids, ¬ Relation.TransGen g.Parent c c) :
    ∀ e ∈ t, e.names e.unit.qualifiedName = false := by
  intro e he
  rw [Bool.eq_false_iff]
  intro hx
  obtain ⟨id, hid, hheads, hnames⟩ := h.enrolled e he
  obtain ⟨r, hr⟩ := Enrolled.names_iff.mp hx
  rw [← hnames r] at hr
  obtain ⟨p, hp, hpn⟩ := List.mem_map.mp hr
  have hpar := mem_parents_iff.mpr ⟨r, hp⟩
  obtain rfl := h.sound.name_inj (h.sound.parent_mem hid hpar) hid (hpn.trans hheads.name.symm)
  exact ha p hid (.single hpar)

/-- Runs that end in the same entries build graphs that are equal by name. -/
theorem sameByName (h : g.Agrees t) (h' : g'.Agrees t') (hr : g.Represents us)
    (hr' : g'.Represents us') (ht : t'.Perm t) (hus : us'.Perm us) (hc : t.Closed) :
    g.SameByName g' := by
  have hknows : ∀ x, t'.knows x = t.knows x := by
    intro x
    rw [Bool.eq_iff_iff]
    simp only [Roster.knows_iff, Roster.declares_iff, Roster.mentions_iff, ht.mem_iff]
  have hlive : ∀ {g : Graph} {t : Roster}, g.Agrees t → ∀ x,
      (x ∈ g.ids.map (fun id => (g.node id).name) ↔ t.knows x = true) := by
    intro g t h x
    rw [h.knows_eq, Option.isSome_iff_exists, List.mem_map]
    exact exists_congr fun id => h.sound.index.symm
  refine ⟨fun x => by rw [hlive h, hlive h', hknows], fun id hid id' hid' hname => ?_⟩
  have hdecl : t.declares (g.node id).name = true := by
    rcases Roster.knows_iff.mp ((hlive h _).mp (List.mem_map_of_mem hid)) with hd | hm
    · exact hd
    · exact hc _ hm
  obtain ⟨e, he, hen⟩ := Roster.declares_iff.mp hdecl
  have he' := ht.mem_iff.mpr he
  obtain ⟨hheads, hnames⟩ := h.entry he hid hen.symm
  obtain ⟨hheads', hnames'⟩ := h'.entry he' hid' (hname.symm.trans hen.symm)
  obtain ⟨u, hu, hdesc⟩ := hr.declared id hid hheads.declared
  obtain ⟨u', hu', hdesc'⟩ := hr'.declared id' hid' hheads'.declared
  obtain rfl := List.inj_on_of_nodup_map hr.distinct hu (hus.mem_iff.mp hu')
    (hdesc.name.symm.trans (hname.trans hdesc'.name))
  have hbare := hdesc.bare.trans hdesc'.bare.symm
  have hparents : ∀ r, g.parentNames r id = g'.parentNames r id' :=
    fun r => (hnames r).trans (hnames' r).symm
  refine ⟨congrArg (·.kind) hbare, congrArg (·.modifiers) hbare, congrArg (·.methods) hbare,
    hparents .extending, hparents .implementing, fun x => ?_⟩
  have hchildren : ∀ {g : Graph} {t : Roster} {id : Nat}, g.Agrees t → id ∈ g.ids →
      (x ∈ (g.node id).children.map (fun c => (g.node c).name) ↔
        ∃ e ∈ t, e.unit.qualifiedName = x ∧ e.names (g.node id).name = true) := by
    intro g t id h hid
    rw [List.mem_map]
    constructor
    · rintro ⟨c, hc, rfl⟩
      obtain ⟨-, e, he, hn, hx⟩ := (h.mem_children_iff hid).mp hc
      exact ⟨e, he, hn.symm, hx⟩
    · rintro ⟨e, he, rfl, hx⟩
      obtain ⟨c, hc, hheads, -⟩ := h.enrolled e he
      exact ⟨c, (h.mem_children_iff hid).mpr ⟨hc, e, he, hheads.name, hx⟩, hheads.name⟩
  rw [hchildren h hid, hchildren h' hid', hname]
  simp only [ht.mem_iff]

/-- Graphs that are equal by name come from the same entries. -/
theorem mem_of_sameByName (h : g.Agrees t) (h' : g'.Agrees t') (hsame : g.SameByName g')
    (hf : ∀ e ∈ t, e.Faithful) (hf' : ∀ e ∈ t', e.Faithful)
    (hunits : (t'.map (·.unit)).Perm (t.map (·.unit))) : ∀ e ∈ t', e ∈ t := by
  intro e' he'
  obtain ⟨e, he, hunit⟩ := List.mem_map.mp (hunits.mem_iff.mp (List.mem_map_of_mem he'))
  obtain ⟨id, hid, hheads, hnames⟩ := h.enrolled e he
  obtain ⟨id', hid', hheads', hnames'⟩ := h'.enrolled e' he'
  have htype := hsame.types id hid id' hid' (by rw [hheads.name, hheads'.name, hunit])
  have hnamed : ∀ r, e.named r = e'.named r := by
    intro r
    rw [← hnames r, ← hnames' r]
    cases r with
    | extending => exact htype.extended
    | implementing => exact htype.implemented
  obtain rfl : e = e' := by
    have hkinds := (hf e he).map_fst.trans (hunit ▸ (hf' e' he').map_fst.symm)
    rcases e with ⟨u, ps⟩
    rcases e' with ⟨u', ps'⟩
    obtain rfl : u = u' := hunit
    obtain rfl : ps = ps' := eq_of_filter_fst hkinds hnamed
    rfl
  exact he

end Agrees
end Graph

/-- What a check that succeeds has found. -/
theorem check_eq_ok {us : List CompilationUnit} {allowUnresolved : Bool} {g : Graph} :
    check us allowUnresolved = .ok g ↔ Graph.empty.declareAll us = (g, .ok ()) ∧
      g.verify allowUnresolved = .ok () ∧ checkSelfReferences us = .ok () := by
  rw [check, Graph.declareAndVerify]
  rcases Graph.empty.declareAll us with ⟨g', e | _⟩
  · simp
  rcases hv : g'.verify allowUnresolved with v | _
  · simp only [hv, Except.mapError, reduceCtorEq, false_iff, not_and]
    rintro hg hv'
    obtain rfl := (Prod.mk.inj hg).1
    cases hv.symm.trans hv'
  · rcases hs : checkSelfReferences us with e | _
    · simp [hv, Except.mapError]
    · simp only [hv, Except.mapError, Except.ok.injEq, Prod.mk.injEq, and_true]
      exact ⟨fun h => ⟨h, h ▸ hv⟩, fun h => h.1⟩

/-- The order of units does not matter to self references. -/
theorem checkSelfReferences_perm {us us' : List CompilationUnit} (h : us'.Perm us) :
    checkSelfReferences us' = .ok () ↔ checkSelfReferences us = .ok () := by
  have hiff : ∀ us, checkSelfReferences us = .ok () ↔ ∀ u ∈ us, u.checkSelfReferences = .ok () := by
    intro us
    induction us with
    | nil => simp [checkSelfReferences, pure, Except.pure]
    | cons u us ih =>
      rw [List.forall_mem_cons, ← ih, checkSelfReferences, checkSelfReferences, List.forM]
      rcases u.checkSelfReferences with e | ⟨⟩
      · simp [bind, Except.bind]
      · simp [bind, Except.bind]
  rw [hiff, hiff]
  simp only [h.mem_iff]

end ClassCompiler
