import ClassCompiler.Proofs.Hierarchy.Declared
import Mathlib.Data.List.Forall2

/-!
# Declarations by name

What a graph says of a program, by name, is a roster: the declared units in
order, each with the names that its parents have by now. A type is known if it
is declared or named as a parent; a placeholder is a name that is known and not
declared. Declaring a unit looks its parents up among the known names, and a
fold renames a placeholder wherever it is named.

Key definitions: `Enrolled`, `Roster.knows`, `CompilationUnit.resolve`, `Roster.fold?`,
`Roster.link?`, `Roster.declare?`, `Roster.run?`, `CompilationUnit.Resolves`, `Roster.Linked`.

Key theorems: `CompilationUnit.resolves_resolve`, `Roster.declare?_eq_some`, `Roster.run?_inv`.
-/

namespace ClassCompiler

namespace CompilationUnit

/-- Whether an import or its own package lets a unit use the simple name of the
type of another. -/
def sees (u t : CompilationUnit) : Bool :=
  u.bareNode.sees t.packageName t.qualifiedName

/-- The qualified name that an import of one type gives a simple name. -/
def importedName? (u : CompilationUnit) (name : String) : Option String :=
  u.bareNode.importedName? name

/-- What the name of a parent leads to, among the known names. -/
def resolve (known : String → Bool) (u : CompilationUnit) (name : String) : String :=
  if known name || Text.isDotted name then name
  else
    match u.importedName? name with
    | some qualified => qualified
    | none =>
      match (u.imports.filter (·.onDemand)).find? fun i => known (Text.qualify i.name name) with
      | some i => Text.qualify i.name name
      | none =>
        if known (Text.qualify u.packageName name) then Text.qualify u.packageName name else name

/-- What a look-up can lead to: the name itself if it is known or qualified,
else what an import of one type says, else a known type that the unit sees, and
last a new placeholder. -/
inductive Resolves (known : String → Bool) (u : CompilationUnit) (n : String) : String → Prop
  | known (hk : known n = true) : Resolves known u n n
  | dotted (hd : Text.isDotted n = true) : Resolves known u n n
  | imported {q : String} (hk : known n = false) (hd : Text.isDotted n = false)
    (hi : u.importedName? n = some q) : Resolves known u n q
  | onDemand {i : ImportDecl} (hk : known n = false) (hd : Text.isDotted n = false)
    (hi : u.importedName? n = none) (hmem : i ∈ u.imports) (ho : i.onDemand = true)
    (hq : known (Text.qualify i.name n) = true) : Resolves known u n (Text.qualify i.name n)
  | package (hk : known n = false) (hd : Text.isDotted n = false) (hi : u.importedName? n = none)
    (hq : known (Text.qualify u.packageName n) = true) :
    Resolves known u n (Text.qualify u.packageName n)
  | placeholder (hk : known n = false) (hd : Text.isDotted n = false) (hi : u.importedName? n = none)
    (ho : ∀ i ∈ u.imports, i.onDemand = true → known (Text.qualify i.name n) = false)
    (hp : known (Text.qualify u.packageName n) = false) : Resolves known u n n

theorem resolves_resolve (known : String → Bool) (u : CompilationUnit) (n : String) :
    u.Resolves known n (u.resolve known n) := by
  rw [resolve]
  rcases hk : known n
  · rcases hd : Text.isDotted n
    · simp only [Bool.or_self, Bool.false_eq_true, if_false]
      rcases hi : u.importedName? n with _ | q
      · rcases hf : (u.imports.filter (·.onDemand)).find? fun i => known (Text.qualify i.name n)
          with _ | i
        · simp only [hf]
          have ho : ∀ i ∈ u.imports, i.onDemand = true → known (Text.qualify i.name n) = false := by
            intro i hmem ho
            simpa using List.find?_eq_none.mp hf i (List.mem_filter.mpr ⟨hmem, ho⟩)
          rcases hq : known (Text.qualify u.packageName n)
          · exact .placeholder hk hd hi ho hq
          · exact .package hk hd hi hq
        · simp only [hf]
          obtain ⟨hmem, ho⟩ := List.mem_filter.mp (List.mem_of_find?_eq_some hf)
          exact .onDemand hk hd hi hmem ho (by simpa using List.find?_some hf)
      · exact .imported hk hd hi
    · exact .dotted hd
  · exact .known hk

/-- Known and qualified names mean themselves. -/
theorem Resolves.eq_self {known : String → Bool} {u : CompilationUnit} {n x : String}
    (h : u.Resolves known n x) (hn : Text.isDotted n = true ∨ known n = true) : x = n := by
  cases h with
  | known => rfl
  | dotted => rfl
  | placeholder => rfl
  | imported hk hd => simp [hk, hd] at hn
  | onDemand hk hd => simp [hk, hd] at hn
  | package hk hd => simp [hk, hd] at hn

end CompilationUnit

/-- A declared unit with the names that its parents have by now. -/
structure Enrolled where
  unit : CompilationUnit
  parents : List (Relation × String)

namespace Enrolled

def names (e : Enrolled) (x : String) : Bool := e.parents.any (·.2 = x)

/-- The names of the parents of one kind. -/
def named (r : Relation) (e : Enrolled) : List String :=
  (e.parents.filter (·.1 = r)).map (·.2)

def rename (old new : String) (e : Enrolled) : Enrolled :=
  { e with parents := e.parents.map fun p => (p.1, if p.2 = old then new else p.2) }

theorem names_iff {e : Enrolled} {x : String} : e.names x = true ↔ ∃ r, x ∈ e.named r := by
  simp [names, named]

theorem names_of_mem {e : Enrolled} {p : Relation × String} {x : String} (h : p ∈ e.parents)
    (hx : p.2 = x) : e.names x = true := by
  simp only [names, List.any_eq_true, decide_eq_true_eq]
  exact ⟨p, h, hx⟩

theorem names_rename {old new x : String} {e : Enrolled} :
    (e.rename old new).names x = true ↔
      (e.names x = true ∧ x ≠ old) ∨ (x = new ∧ e.names old = true) := by
  simp only [names, rename, List.any_map, List.any_eq_true, Function.comp_apply, decide_eq_true_eq]
  constructor
  · rintro ⟨p, hp, hx⟩
    split at hx
    · exact .inr ⟨hx.symm, p, hp, ‹_›⟩
    · exact .inl ⟨⟨p, hp, hx⟩, hx ▸ ‹_›⟩
  · rintro (⟨⟨p, hp, rfl⟩, hne⟩ | ⟨rfl, p, hp, rfl⟩)
    · exact ⟨p, hp, if_neg hne⟩
    · exact ⟨p, hp, if_pos rfl⟩

theorem named_append (u : CompilationUnit) (acc : List (Relation × String)) (r r' : Relation)
    (x : String) : named r' ⟨u, acc ++ [(r, x)]⟩ = named r' ⟨u, acc⟩ ++ if r' = r then [x] else [] := by
  by_cases h : r' = r
  · simp [named, h]
  · simp [named, h, Ne.symm h]

theorem named_rename (old new : String) (r : Relation) (e : Enrolled) :
    (e.rename old new).named r = (e.named r).map fun x => if x = old then new else x := by
  simp [named, rename, List.filter_map, Function.comp_def]

end Enrolled

abbrev Roster := List Enrolled

namespace Roster

def declares (t : Roster) (x : String) : Bool := t.any (·.unit.qualifiedName = x)

def mentions (t : Roster) (x : String) : Bool := t.any (·.names x)

def knows (t : Roster) (x : String) : Bool := t.declares x || t.mentions x

/-- Every name that a roster mentions is declared in it. -/
def Closed (t : Roster) : Prop := ∀ x, t.mentions x = true → t.declares x = true

/-- The simple name of a unit is a placeholder, and every unit that names it
sees the new one. -/
def foldsInto (t : Roster) (u : CompilationUnit) : Bool :=
  u.qualifiedName ≠ u.decl.name && !t.declares u.decl.name && t.mentions u.decl.name &&
    t.all fun e => !e.names u.decl.name || e.unit.sees u

/-- Rename the placeholder that stands for a unit, unless some type would then
have one parent twice. -/
def fold? (t : Roster) (u : CompilationUnit) : Option Roster :=
  if t.foldsInto u then
    if t.any fun e => e.names u.decl.name && e.names u.qualifiedName then none
    else some (t.map (.rename u.decl.name u.qualifiedName))
  else some t

/-- Enter a unit that has the parents `acc` and those still to be looked up. -/
def link? (t : Roster) (u : CompilationUnit) (acc : List (Relation × String)) :
    List (Relation × String) → Option Roster
  | [] => some (t ++ [⟨u, acc⟩])
  | (r, name) :: rest =>
    let x := u.resolve (knows (t ++ [⟨u, acc⟩])) name
    if acc.any (·.2 = x) then none else t.link? u (acc ++ [(r, x)]) rest

/-- Declare a unit. -/
def declare? (t : Roster) (u : CompilationUnit) : Option Roster :=
  if Text.isBlank u.decl.name || t.declares u.qualifiedName then none
  else (t.fold? u).bind fun t' => t'.link? u [] u.decl.parents

/-- Declare units in order. -/
def run? (t : Roster) : List CompilationUnit → Option Roster
  | [] => some t
  | u :: us => (t.declare? u).bind fun t' => run? t' us

/-- A fold leaves the declared units alone. -/
theorem map_unit_fold? {t t' : Roster} {u : CompilationUnit} (h : t.fold? u = some t') :
    t'.map (·.unit) = t.map (·.unit) := by
  rw [fold?] at h
  split at h
  · split at h
    · cases h
    · cases h
      rw [List.map_map]
      rfl
  · cases h
    rfl

theorem declares_eq (t : Roster) (x : String) :
    t.declares x = (t.map (·.unit)).any (·.qualifiedName = x) := by
  rw [List.any_map]
  rfl

theorem declares_iff {t : Roster} {x : String} :
    t.declares x = true ↔ ∃ e ∈ t, e.unit.qualifiedName = x := by
  simp [declares]

theorem ne_of_not_declares {t : Roster} {x : String} (h : t.declares x = false) :
    ∀ v ∈ t.map (·.unit), v.qualifiedName ≠ x := by
  intro v hv hx
  obtain ⟨e, he, rfl⟩ := List.mem_map.mp hv
  cases h.symm.trans (declares_iff.mpr ⟨e, he, hx⟩)

theorem mentions_iff {t : Roster} {x : String} : t.mentions x = true ↔ ∃ e ∈ t, e.names x = true := by
  simp [mentions]

theorem knows_iff {t : Roster} {x : String} :
    t.knows x = true ↔ t.declares x = true ∨ t.mentions x = true := by
  simp [knows]

theorem knows_append {t : Roster} {u : CompilationUnit} {acc : List (Relation × String)} {x : String} :
    knows (t ++ [⟨u, acc⟩]) x = true ↔
      t.knows x = true ∨ u.qualifiedName = x ∨ ∃ p ∈ acc, p.2 = x := by
  simp only [knows, declares, mentions, Enrolled.names, List.any_append, List.any_cons, List.any_nil,
    Bool.or_eq_true, Bool.or_false, decide_eq_true_eq, List.any_eq_true]
  exact or_or_or_comm

/-! ### Steps that succeed -/

theorem foldsInto_iff {t : Roster} {u : CompilationUnit} :
    t.foldsInto u = true ↔ u.qualifiedName ≠ u.decl.name ∧ t.declares u.decl.name = false ∧
      t.mentions u.decl.name = true ∧ ∀ e ∈ t, e.names u.decl.name = true → e.unit.sees u = true := by
  simp only [foldsInto, Bool.and_eq_true, decide_eq_true_eq, Bool.not_eq_true', List.all_eq_true,
    Bool.or_eq_true, and_assoc]
  refine and_congr_right fun _ => and_congr_right fun _ => and_congr_right fun _ => ?_
  refine forall₂_congr fun e _ => ?_
  rcases e.names u.decl.name <;> simp

theorem fold?_eq_some {t t' : Roster} {u : CompilationUnit} :
    t.fold? u = some t' ↔ (t.foldsInto u = false ∧ t' = t) ∨
      (t.foldsInto u = true ∧ t' = t.map (.rename u.decl.name u.qualifiedName) ∧
        ∀ e ∈ t, e.names u.decl.name = true → e.names u.qualifiedName = false) := by
  have hdup : (t.any fun e => e.names u.decl.name && e.names u.qualifiedName) = false ↔
      ∀ e ∈ t, e.names u.decl.name = true → e.names u.qualifiedName = false := by
    simp only [List.any_eq_false, Bool.and_eq_true, not_and, Bool.not_eq_true]
  rw [fold?, ← hdup]
  rcases t.foldsInto u
  · simpa using eq_comm
  · rcases t.any fun e => e.names u.decl.name && e.names u.qualifiedName
    · simpa using eq_comm
    · simp

/-- The parents of a unit are looked up one after the other, each among the
names that are known by then, and no name comes up twice. -/
inductive Linked (t : Roster) (u : CompilationUnit) :
    List (Relation × String) → List (Relation × String) → List (Relation × String) → Prop
  | nil {acc : List (Relation × String)} : Linked t u acc [] []
  | cons {acc names ps : List (Relation × String)} {r : Relation} {n x : String}
    (hx : u.Resolves (knows (t ++ [⟨u, acc⟩])) n x) (hnew : ∀ p ∈ acc, p.2 ≠ x)
    (rest : Linked t u (acc ++ [(r, x)]) names ps) : Linked t u acc ((r, n) :: names) ((r, x) :: ps)

theorem link?_eq_some {t : Roster} {u : CompilationUnit} : ∀ {names acc : List (Relation × String)}
    {t' : Roster}, t.link? u acc names = some t' →
      ∃ ps, t.Linked u acc names ps ∧ t' = t ++ [⟨u, acc ++ ps⟩]
  | [], acc, t', h => ⟨[], .nil, by rw [List.append_nil]; exact (Option.some.inj h).symm⟩
  | (r, n) :: names, acc, t', h => by
    rw [link?] at h
    split at h
    · cases h
    · rename_i hnew
      obtain ⟨ps, hl, rfl⟩ := link?_eq_some h
      refine ⟨_ :: ps, .cons (u.resolves_resolve _ n) (fun p hp he => hnew ?_) hl, by simp⟩
      simp only [List.any_eq_true, decide_eq_true_eq]
      exact ⟨p, hp, he⟩

theorem declare?_eq_some {t t' : Roster} {u : CompilationUnit} (h : t.declare? u = some t') :
    Text.isBlank u.decl.name = false ∧ t.declares u.qualifiedName = false ∧
      ∃ t₁ ps, t.fold? u = some t₁ ∧ t₁.Linked u [] u.decl.parents ps ∧ t' = t₁ ++ [⟨u, ps⟩] := by
  rw [declare?] at h
  split at h
  · cases h
  · rename_i hok
    simp only [Bool.or_eq_true, not_or, Bool.not_eq_true] at hok
    obtain ⟨t₁, hf, hl⟩ := Option.bind_eq_some_iff.mp h
    obtain ⟨ps, hlinked, rfl⟩ := link?_eq_some hl
    exact ⟨hok.1, hok.2, t₁, ps, hf, hlinked, rfl⟩

theorem run?_append (t : Roster) (us vs : List CompilationUnit) :
    t.run? (us ++ vs) = (t.run? us).bind fun t' => t'.run? vs := by
  induction us generalizing t with
  | nil => rfl
  | cons u us ih =>
    rw [List.cons_append, run?, run?, Option.bind_assoc]
    exact congrArg _ (funext ih)

/-- What every declaration keeps, a run keeps. -/
theorem run?_inv {I : Roster → Prop} : ∀ {us : List CompilationUnit} {t t' : Roster},
    (∀ t u t', u ∈ us → I t → t.declare? u = some t' → I t') → I t → t.run? us = some t' → I t'
  | [], t, t', _, ht, h => Option.some.inj h ▸ ht
  | u :: us, t, t', hstep, ht, h => by
    obtain ⟨t₁, h₁, h₂⟩ := Option.bind_eq_some_iff.mp h
    refine run?_inv (fun t v t' hv => hstep t v t' (List.mem_cons_of_mem _ hv)) ?_ h₂
    exact hstep t u t₁ List.mem_cons_self ht h₁

/-- The units declared before a fold stay declared. -/
theorem declares_of_fold? {t t' : Roster} {u : CompilationUnit} (h : t.fold? u = some t') :
    ∀ v ∈ t.map (·.unit) ++ [u], v = u ∨ t'.declares v.qualifiedName = true := by
  intro v hv
  rcases List.mem_append.mp hv with hv | hv
  · rw [← map_unit_fold? h] at hv
    obtain ⟨e, he, rfl⟩ := List.mem_map.mp hv
    exact .inr (declares_iff.mpr ⟨e, he, rfl⟩)
  · exact .inl (List.mem_singleton.mp hv)

theorem map_unit_declare? {t t' : Roster} {u : CompilationUnit} (h : t.declare? u = some t') :
    t'.map (·.unit) = t.map (·.unit) ++ [u] := by
  obtain ⟨-, -, t₁, ps, hf, -, rfl⟩ := declare?_eq_some h
  rw [List.map_append, map_unit_fold? hf]
  rfl

theorem map_unit_run? : ∀ {us : List CompilationUnit} {t t' : Roster}, t.run? us = some t' →
    t'.map (·.unit) = t.map (·.unit) ++ us
  | [], t, t', h => by
    rw [← Option.some.inj h, List.append_nil]
  | u :: us, t, t', h => by
    obtain ⟨t₁, h₁, h₂⟩ := Option.bind_eq_some_iff.mp h
    rw [map_unit_run? h₂, map_unit_declare? h₁, List.append_assoc]
    rfl

theorem units_of_run? {us : List CompilationUnit} {t : Roster} (h : run? [] us = some t) :
    t.map (·.unit) = us :=
  map_unit_run? h

theorem distinct_run? {us : List CompilationUnit} {t : Roster} (h : run? [] us = some t) :
    ((t.map (·.unit)).map (·.qualifiedName)).Nodup := by
  refine run?_inv (I := fun t => ((t.map (·.unit)).map (·.qualifiedName)).Nodup) ?_ (by simp) h
  intro t u t' _ ht hd
  obtain ⟨-, hfresh, -⟩ := declare?_eq_some hd
  rw [map_unit_declare? hd, List.map_append, List.nodup_append]
  refine ⟨ht, List.nodup_singleton _, fun x hx y hy => ?_⟩
  obtain ⟨v, hv, rfl⟩ := List.mem_map.mp hx
  rw [List.mem_singleton.mp hy]
  exact ne_of_not_declares hfresh v hv

theorem not_isBlank_run? {us : List CompilationUnit} {t : Roster} (h : run? [] us = some t) :
    ∀ u ∈ us, Text.isBlank u.decl.name = false := by
  rw [← units_of_run? h]
  refine run?_inv (I := fun t => ∀ u ∈ t.map (·.unit), Text.isBlank u.decl.name = false) ?_ nofun h
  intro t u t' _ ht hd v hv
  rw [map_unit_declare? hd] at hv
  rcases List.mem_append.mp hv with hv | hv
  · exact ht v hv
  · rw [List.mem_singleton.mp hv]
    exact (declare?_eq_some hd).1

end Roster

/-- One parent for each that the unit names, of the same kind; qualified names
and the unit's own name stand for themselves; and no parent twice. -/
structure Enrolled.Faithful (e : Enrolled) : Prop where
  parents : List.Forall₂ (fun p q => p.1 = q.1 ∧
    (Text.isDotted p.2 = true ∨ p.2 = e.unit.qualifiedName → q.2 = p.2)) e.unit.decl.parents e.parents
  distinct : (e.parents.map (·.2)).Nodup

theorem Enrolled.Faithful.map_fst {e : Enrolled} (h : e.Faithful) :
    e.parents.map (·.1) = e.unit.decl.parents.map (·.1) := by
  rw [← List.forall₂_eq_eq_eq, List.forall₂_map_left_iff, List.forall₂_map_right_iff]
  exact h.parents.flip.imp fun _ _ hp => hp.1.symm

namespace Roster

theorem Linked.faithful {t : Roster} {u : CompilationUnit} {acc names ps : List (Relation × String)}
    (h : t.Linked u acc names ps) (hacc : (acc.map (·.2)).Nodup) :
    List.Forall₂ (fun p q => p.1 = q.1 ∧
      (Text.isDotted p.2 = true ∨ p.2 = u.qualifiedName → q.2 = p.2)) names ps ∧
    ((acc ++ ps).map (·.2)).Nodup := by
  induction h with
  | nil => exact ⟨.nil, by rwa [List.append_nil]⟩
  | @cons acc names ps r n x hx hnew _ ih =>
    have hacc' : ((acc ++ [(r, x)]).map (·.2)).Nodup := by
      rw [List.map_append, List.nodup_append]
      refine ⟨hacc, List.nodup_singleton _, ?_⟩
      intro y hy y' hy'
      obtain ⟨p, hp, rfl⟩ := List.mem_map.mp hy
      rw [List.mem_singleton.mp hy']
      exact hnew p hp
    obtain ⟨hall, hd⟩ := ih hacc'
    refine ⟨.cons ⟨rfl, fun hn => hx.eq_self (hn.imp_right fun he => ?_)⟩ hall, by simpa using hd⟩
    exact knows_append.mpr (.inr (.inl he.symm))

theorem faithful_fold? {t t' : Roster} {u : CompilationUnit} (hu : Text.isDotted u.decl.name = false)
    (h : t.fold? u = some t') (ht : ∀ e ∈ t, e.Faithful) : ∀ e ∈ t', e.Faithful := by
  rcases fold?_eq_some.mp h with ⟨-, rfl⟩ | ⟨hf, rfl, hdup⟩
  · exact ht
  obtain ⟨-, hdecl, -, -⟩ := foldsInto_iff.mp hf
  intro e' he'
  obtain ⟨e, he, rfl⟩ := List.mem_map.mp he'
  obtain ⟨hparents, hdistinct⟩ := ht e he
  refine ⟨List.forall₂_map_right_iff.mpr (hparents.imp ?_), ?_⟩
  · rintro p q ⟨hr, hq⟩
    refine ⟨hr, fun hn => ?_⟩
    -- the renamed name is simple and not declared
    have hne : q.2 ≠ u.decl.name := by
      rw [hq hn]
      rintro he'
      rcases hn with hn | hn
      · rw [he', hu] at hn
        cases hn
      · have : t.declares u.decl.name = true := declares_iff.mpr ⟨e, he, hn.symm.trans he'⟩
        rw [hdecl] at this
        cases this
    exact (if_neg hne).trans (hq hn)
  · rw [Enrolled.rename, List.map_map]
    have := hdistinct.map_on (f := fun x => if x = u.decl.name then u.qualifiedName else x) ?_
    · simpa [List.map_map, Function.comp_def] using this
    · intro x hx y hy hxy
      have hnames : ∀ {z}, z ∈ e.parents.map (·.2) → e.names z = true := by
        intro z hz
        obtain ⟨p, hp, hz⟩ := List.mem_map.mp hz
        exact Enrolled.names_of_mem hp hz
      have hno := hdup e he
      split at hxy <;> split at hxy
      · simp_all
      · subst hxy
        cases (hno (‹x = _› ▸ hnames hx)).symm.trans (hnames hy)
      · subst hxy
        cases (hno (‹y = _› ▸ hnames hy)).symm.trans (hnames hx)
      · exact hxy

theorem faithful_run? {us : List CompilationUnit} {t : Roster}
    (hus : ∀ u ∈ us, Text.isDotted u.decl.name = false) (h : run? [] us = some t) :
    ∀ e ∈ t, e.Faithful := by
  refine run?_inv (I := fun t => ∀ e ∈ t, e.Faithful) ?_ (by simp) h
  intro t u t' hu ht hd
  obtain ⟨-, -, t₁, ps, hf, hl, rfl⟩ := declare?_eq_some hd
  intro e he
  rcases List.mem_append.mp he with he | he
  · exact faithful_fold? (hus u hu) hf ht e he
  · obtain rfl := List.mem_singleton.mp he
    obtain ⟨hall, hnodup⟩ := hl.faithful .nil
    exact ⟨hall, hnodup⟩

end Roster

end ClassCompiler
