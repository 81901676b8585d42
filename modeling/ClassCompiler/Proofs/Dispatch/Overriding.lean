import ClassCompiler.Proofs.Dispatch.Vtables

/-!
# Overriding

A call of a method on an object enters the declaration of the object's own
class or, if that has none, of the first class above it that has one. The slots
of a vtable hold just these declarations. A class that declares a method again
replaces its entry, whether either of them is abstract or not, and what is above
a type that no unit declares does not count, since nothing is known of it.

On a lawful graph a signature is static in all types of a chain or in none, so
no slot has the signature of a static method that is declared along the chain.

Key definitions: `TypeNode.DeclaresInstance`, `Graph.Dispatches`.

Key theorems: `Graph.HasVtable.mem_iff`, `Graph.HasVtable.exists_entry_iff`,
`Graph.static_of_superclasses`, `Layout.vtable_entries_most_derived`.
-/

namespace ClassCompiler

/-- A type has a method of a signature that is not static. -/
def TypeNode.DeclaresInstance (n : TypeNode) (s : Signature) : Prop :=
  ∃ m ∈ n.methods, m.has .isStatic = false ∧ m.signature = s

instance (n : TypeNode) (s : Signature) : Decidable (n.DeclaresInstance s) :=
  inferInstanceAs (Decidable (∃ m ∈ n.methods, m.has .isStatic = false ∧ m.signature = s))

namespace Graph

variable {g : Graph} {us : List CompilationUnit} {allowUnresolved : Bool} {s : Signature}

/-- A call of `s` on an object of a class enters the method of a type: the
class itself if it declares one, and otherwise what its superclass has. -/
inductive Dispatches (g : Graph) (s : Signature) : TypeId → TypeId → Method → Prop
  | own {c : TypeId} {m : Method} (hm : m ∈ (g.node c).methods) (hi : m.has .isStatic = false)
    (hs : m.signature = s) : Dispatches g s c c m
  | inherited {c p d : TypeId} {m : Method} (hnone : ¬ (g.node c).DeclaresInstance s)
    (hp : g.Superclass c p) (above : Dispatches g s p d m) : Dispatches g s c d m

/-- What is entered is a declaration of the signature that is not static. -/
theorem Dispatches.declared {c d : Nat} {m : Method} (h : g.Dispatches s c d m) :
    m ∈ (g.node d).methods ∧ m.has .isStatic = false ∧ m.signature = s := by
  induction h with
  | own hm hi hs => exact ⟨hm, hi, hs⟩
  | inherited _ _ _ ih => exact ih

theorem Dispatches.reaches {c d : Nat} {m : Method} (h : g.Dispatches s c d m) :
    Relation.ReflTransGen g.Superclass c d := by
  induction h with
  | own => exact .refl
  | inherited _ hp _ ih => exact .head hp ih

/-- Some declaration is entered if there is one along the chain. -/
theorem exists_dispatches {c d : Nat} (hup : Relation.ReflTransGen g.Superclass c d)
    (hd : (g.node d).DeclaresInstance s) : ∃ e m, g.Dispatches s c e m := by
  induction hup using Relation.ReflTransGen.head_induction_on with
  | refl =>
    obtain ⟨m, hm, hi, hs⟩ := hd
    exact ⟨d, m, .own hm hi hs⟩
  | @head c p hp _ ih =>
    by_cases hown : (g.node c).DeclaresInstance s
    · obtain ⟨m, hm, hi, hs⟩ := hown
      exact ⟨c, m, .own hm hi hs⟩
    · obtain ⟨e, m, h⟩ := ih
      exact ⟨e, m, .inherited hown hp h⟩

section lawful
variable (hg : g.Sound) (hl : g.Lawful allowUnresolved)
include hg

theorem mem_ids_of_superclasses {c d : Nat} (hc : c ∈ g.ids)
    (hup : Relation.ReflTransGen g.Superclass c d) : d ∈ g.ids := by
  induction hup with
  | refl => exact hc
  | tail _ hs ih => exact hg.parent_mem ih (parent_of_superclass hs)

include hl

/-- The entries of a vtable are the declarations that calls enter. -/
theorem HasVtable.mem_iff {id : Nat} {v : List VtableEntry} (h : g.HasVtable id v) (hid : id ∈ g.ids)
    {e : VtableEntry} : e ∈ v ↔ ∃ d m, g.Dispatches e.signature id d m ∧ e = Vtable.entry m := by
  induction h with
  | @first id hnone =>
    have hnil : (([] : List VtableEntry).map (·.signature)).Nodup := List.nodup_nil
    rw [Vtable.mem_extend (hl.own id hid).distinct hnil]
    constructor
    · rintro (⟨m, hm, hi, rfl⟩ | ⟨he, -⟩)
      · exact ⟨id, m, .own hm hi rfl, rfl⟩
      · cases he
    · rintro ⟨d, m, hd, he⟩
      cases hd with
      | own hm hi _ => exact .inl ⟨m, hm, hi, he⟩
      | inherited _ hp => cases hnone.symm.trans hp
  | @extending id p v hp above ih =>
    have hpid := hg.parent_mem hid (parent_of_superclass hp)
    have hown : (∀ m ∈ (g.node id).methods, m.has .isStatic = false → m.signature ≠ e.signature) ↔
        ¬ (g.node id).DeclaresInstance e.signature := by
      simp only [TypeNode.DeclaresInstance, not_exists, not_and, ne_eq]
    rw [Vtable.mem_extend (hl.own id hid).distinct (above.nodup hg hl hpid), ih hpid, hown]
    constructor
    · rintro (⟨m, hm, hi, rfl⟩ | ⟨⟨d, m, hd, he⟩, hnone⟩)
      · exact ⟨id, m, .own hm hi rfl, rfl⟩
      · exact ⟨d, m, .inherited hnone hp hd, he⟩
    · rintro ⟨d, m, hd, he⟩
      cases hd with
      | own hm hi _ => exact .inl ⟨m, hm, hi, he⟩
      | inherited hnone hp' above' =>
        obtain rfl := Option.some.inj (Eq.trans (Eq.symm hp) hp')
        exact .inr ⟨⟨d, m, above', he⟩, hnone⟩

/-- The types of a chain of superclasses that declare methods are classes. -/
theorem isClass_of_superclasses {c d : Nat} (hc : c ∈ g.ids) (hclass : (g.node c).isClass = true)
    (hup : Relation.ReflTransGen g.Superclass c d) (hd : (g.node d).methods ≠ []) :
    (g.node d).isClass = true := by
  have hdid := mem_ids_of_superclasses hg hc hup
  have hdeclared : (g.node d).isPlaceholder = false := by
    by_contra hph
    exact hd (hg.placeholder hdid (by simpa using hph)).2
  rcases Relation.ReflTransGen.cases_tail hup with rfl | ⟨b, hcb, hbd⟩
  · exact hclass
  · exact hl.isClass_superclass (mem_ids_of_superclasses hg hc hcb) hbd hdeclared

/-- Along a chain a signature is static everywhere or nowhere. -/
theorem static_of_superclasses {c d e : Nat} (hc : c ∈ g.ids)
    (hd : Relation.ReflTransGen g.Superclass c d) (he : Relation.ReflTransGen g.Superclass c e)
    {m o : Method} (hm : m ∈ (g.node d).methods) (ho : o ∈ (g.node e).methods)
    (hs : m.signature = o.signature) : m.has .isStatic = o.has .isStatic := by
  have hfunctional : Relator.RightUnique g.Superclass :=
    fun _ _ _ h h' => Option.some.inj (Eq.trans (Eq.symm h) h')
  have hextends : ∀ {a b : Nat}, Relation.ReflTransGen g.Superclass a b → b ≠ a →
      Relation.TransGen g.Extends a b := by
    intro a b hab hne
    refine Relation.TransGen.mono (fun _ _ => extends_of_superclass) _ _ ?_
    exact (Relation.reflTransGen_iff_eq_or_transGen.mp hab).resolve_left hne
  by_cases hde : d = e
  · subst hde
    have hdid := mem_ids_of_superclasses hg hc hd
    rw [List.inj_on_of_nodup_map (hl.own d hdid).distinct hm ho hs]
  · -- one of the two types is above the other
    rcases Relation.ReflTransGen.total_of_right_unique hfunctional hd he with hup | hup
    · have hrep := hl.replaced d (mem_ids_of_superclasses hg hc hd) e (hextends hup (Ne.symm hde))
      exact (hrep o ho m hm hs.symm).static.symm
    · have hrep := hl.replaced e (mem_ids_of_superclasses hg hc he) d (hextends hup hde)
      exact (hrep m hm o ho hs).static

end lawful

/-- A method of a class comes from a declaration in its unit. -/
theorem Represents.exists_methodDecl (hr : g.Represents us) {d : Nat} (hd : d ∈ g.ids)
    (hclass : (g.node d).isClass = true) {m : Method} (hm : m ∈ (g.node d).methods) :
    ∃ u ∈ us, ∃ c : ClassDecl, u.decl = .ofClass c ∧
      ∃ decl ∈ c.methods, m = .ofDecl u.qualifiedName decl := by
  obtain ⟨u, hu, c, hdecl, -, hmethods⟩ := hr.exists_classDecl hd hclass
  rw [hmethods] at hm
  obtain ⟨decl, hdeclm, rfl⟩ := List.mem_map.mp hm
  exact ⟨u, hu, c, hdecl, decl, hdeclm, rfl⟩

namespace HasVtable

variable (hr : g.Represents us) (hl : g.Lawful allowUnresolved) {id : Nat} {v : List VtableEntry}
  (h : g.HasVtable id v) (hid : id ∈ g.ids)
include hr hl h hid

/-- An entry names the type that declares it, and has its label and its flag. -/
theorem mem_iff_named {e : VtableEntry} : e ∈ v ↔ ∃ d m, g.Dispatches e.signature id d m ∧
    e = ⟨e.signature, (g.node d).name, Symbol.ofMethod (g.node d).name e.signature,
      m.has .isAbstract⟩ := by
  rw [h.mem_iff hr.sound hl hid]
  refine exists_congr fun d => exists_congr fun m => and_congr_right fun hd => ?_
  obtain ⟨hm, -, hs⟩ := hd.declared
  rw [Vtable.entry, hr.owner d (mem_ids_of_superclasses hr.sound hid hd.reaches) m hm, hs]

/-- No slot has the signature of a static method of the chain. -/
theorem signature_ne_of_static {d : Nat} (hup : Relation.ReflTransGen g.Superclass id d) {m : Method}
    (hm : m ∈ (g.node d).methods) (hstatic : m.has .isStatic = true) {e : VtableEntry} (he : e ∈ v) :
    e.signature ≠ m.signature := by
  intro hsig
  obtain ⟨d', m', hd', -⟩ := (h.mem_iff hr.sound hl hid).mp he
  obtain ⟨hm', hi', hs'⟩ := hd'.declared
  have hsame := static_of_superclasses hr.sound hl hid hup hd'.reaches hm hm'
    (hsig.symm.trans hs'.symm)
  cases hstatic.symm.trans (hsame.trans hi')

variable (hclass : (g.node id).isClass = true)
include hclass

/-- A signature has an entry if a class of the chain declares it. -/
theorem exists_entry_iff : (∃ e ∈ v, e.signature = s) ↔
    ∃ d, Relation.ReflTransGen g.Superclass id d ∧ (g.node d).isClass = true ∧
      (g.node d).DeclaresInstance s := by
  constructor
  · rintro ⟨e, he, rfl⟩
    obtain ⟨d, m, hd, -⟩ := (h.mem_iff hr.sound hl hid).mp he
    refine ⟨d, hd.reaches, ?_, m, hd.declared⟩
    exact isClass_of_superclasses hr.sound hl hid hclass hd.reaches (List.ne_nil_of_mem hd.declared.1)
  · rintro ⟨d, hup, -, hdecl⟩
    obtain ⟨e, m, hd⟩ := exists_dispatches hup hdecl
    obtain ⟨-, -, rfl⟩ := hd.declared
    exact ⟨Vtable.entry m, (h.mem_iff hr.sound hl hid).mpr ⟨e, m, hd, rfl⟩, rfl⟩

/-- An entry is that of a method that some class declares and that is not
static: not of a constructor, and not of a method of an interface. -/
theorem exists_methodDecl {e : VtableEntry} (he : e ∈ v) :
    ∃ u ∈ us, ∃ c : ClassDecl, u.decl = .ofClass c ∧ ∃ m ∈ c.methods, m.has .isStatic = false ∧
      e = Vtable.entry (.ofDecl u.qualifiedName m) := by
  obtain ⟨d, m, hd, rfl⟩ := (h.mem_iff hr.sound hl hid).mp he
  obtain ⟨hm, hi, -⟩ := hd.declared
  have hdclass := isClass_of_superclasses hr.sound hl hid hclass hd.reaches (List.ne_nil_of_mem hm)
  obtain ⟨u, hu, c, hdecl, m', hm', rfl⟩ :=
    hr.exists_methodDecl (mem_ids_of_superclasses hr.sound hid hd.reaches) hdclass hm
  rw [Method.has_ofDecl] at hi
  exact ⟨u, hu, c, hdecl, m', hm', hi, rfl⟩

end HasVtable
end Graph

namespace Layout

/-- The slots of a class hold the declarations that calls on its objects enter. -/
theorem vtable_entries_most_derived (us : List CompilationUnit) (allowUnresolved : Bool) (g : Graph)
    (h : check us allowUnresolved = .ok g) :
    ∃ l, ofGraph g us = .ok l ∧
      l.classes.map (·.name) = (us.filter fun u => u.decl.kind = .ofClass).map (·.qualifiedName) ∧
      ∀ c ∈ l.classes, ∃ id, g.find? c.name = some id ∧
      (∀ s, (∃ e ∈ c.vtable, e.signature = s) ↔
        ∃ d, Relation.ReflTransGen g.Superclass id d ∧ (g.node d).isClass = true ∧
          (g.node d).DeclaresInstance s) ∧
      (∀ e, e ∈ c.vtable ↔ ∃ d m, g.Dispatches e.signature id d m ∧
        e = ⟨e.signature, (g.node d).name, Symbol.ofMethod (g.node d).name e.signature,
          m.has .isAbstract⟩) ∧
      (∀ e ∈ c.vtable, ∃ u ∈ us, ∃ decl : ClassDecl, u.decl = .ofClass decl ∧
        ∃ m ∈ decl.methods, m.has .isStatic = false ∧ e = Vtable.entry (.ofDecl u.qualifiedName m)) ∧
      ∀ d, Relation.ReflTransGen g.Superclass id d → ∀ m ∈ (g.node d).methods,
        m.has .isStatic = true → c.slot? m.signature = none := by
  obtain ⟨hr, hl⟩ := represents_of_check h
  obtain ⟨l, ids, hok, hb⟩ := exists_ofGraph hr hl
  refine ⟨l, hok, hb.names_classes hr, fun c hc => ?_⟩
  obtain ⟨id, hcof⟩ := hb.exists_classOf hr hc
  have hv := hcof.vtable
  refine ⟨id, hcof.find, fun s => hv.exists_entry_iff hr hl hcof.live hcof.isClass,
    fun e => hv.mem_iff_named hr hl hcof.live,
    fun e he => hv.exists_methodDecl hr hl hcof.live hcof.isClass he, ?_⟩
  intro d hup m hm hstatic
  rw [ClassLayout.slot?, List.findIdx?_eq_none_iff]
  intro e he
  rw [decide_eq_false_iff_not]
  exact hv.signature_ne_of_static hr hl hcof.live hup hm hstatic he

end Layout

/-- One method is inherited, one is declared again and becomes abstract, and
the static one has no slot. -/
theorem layeredUnits_entries : ∃ g l, check layeredUnits true = .ok g ∧
    Layout.ofGraph g layeredUnits = .ok l ∧ l.classes.map (·.name) = ["B", "A"] ∧
    ∀ b ∈ l.classes, b.name = "B" →
      ⟨⟨"f", []⟩, "A", Symbol.ofMethod "A" ⟨"f", []⟩, false⟩ ∈ b.vtable ∧
      ⟨⟨"g", []⟩, "B", Symbol.ofMethod "B" ⟨"g", []⟩, true⟩ ∈ b.vtable ∧
      b.slot? ⟨"s", []⟩ = none := by
  obtain ⟨l, hok, hnames, hclasses⟩ := Layout.vtable_entries_most_derived layeredUnits true
    (Graph.empty.declareAll layeredUnits).1 rfl
  refine ⟨_, l, rfl, hok, hnames, fun b hb hbn => ?_⟩
  obtain ⟨id, hid, -, hentry, -, hstatic⟩ := hclasses b hb
  rw [hbn] at hid
  obtain rfl : 0 = id := Option.some.inj hid
  have hup : (Graph.empty.declareAll layeredUnits).1.Superclass 0 1 := rfl
  refine ⟨(hentry _).mpr ⟨1, ⟨"A", ⟨"f", []⟩, none, []⟩, ?_, rfl⟩,
    (hentry _).mpr ⟨0, ⟨"B", ⟨"g", []⟩, none, [.isAbstract]⟩, ?_, rfl⟩, ?_⟩
  · exact .inherited (by decide) hup (.own (by decide) rfl rfl)
  · exact .own (by decide) rfl rfl
  · exact hstatic 1 (.single hup) ⟨"A", ⟨"s", []⟩, none, [.isStatic]⟩ (by decide) rfl

end ClassCompiler
