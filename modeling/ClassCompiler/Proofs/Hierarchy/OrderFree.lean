import ClassCompiler.Proofs.Hierarchy.Roster
import ClassCompiler.Proofs.Text.Names
import Mathlib.Data.List.Forall2

/-!
# Programs that may be declared in any order

A simple name is looked up among the names that are known by then, so what it
means can depend on which types have been declared. It does not if every unit
that uses the name can only mean one and the same type by it, and every import
that takes part leads to a declared type. Under this condition a run in any
order succeeds and ends in the same entries.

The proof follows a run. At any time a parent has the name that it is destined
for, or still is the placeholder of a simple name whose type has not been
declared; the placeholder is folded into that type and no other, because some
unit without an import of the name blocks all others.

Key definitions: `CompilationUnit.Uses`, `CompilationUnit.MayMean`, `Settled`, `Clear`,
`OrderFree`.

Key theorems: `OrderFree.run?_perm`.
-/

namespace ClassCompiler

namespace CompilationUnit

variable {u t : CompilationUnit} {n q : String}

/-- Whether a unit names a parent so. -/
def Uses (u : CompilationUnit) (n : String) : Prop := ∃ p ∈ u.decl.parents, p.2 = n

instance (u : CompilationUnit) (n : String) : Decidable (u.Uses n) :=
  inferInstanceAs (Decidable (∃ p ∈ u.decl.parents, p.2 = n))

/-- Whether a unit without an import of the simple name of a type can mean the
type by it: it sees the type, or the type is in the unnamed package. -/
def MayMean (u t : CompilationUnit) : Prop := u.sees t = true ∨ t.qualifiedName = t.decl.name

instance (u t : CompilationUnit) : Decidable (u.MayMean t) :=
  inferInstanceAs (Decidable (_ ∨ _))

theorem sees_iff : u.sees t = true ↔ u.packageName = t.packageName ∨
    ∃ i ∈ u.imports, if i.onDemand then i.name = t.packageName else i.name = t.qualifiedName := by
  simp only [sees, TypeNode.sees, bareNode, Bool.or_eq_true, beq_iff_eq, List.any_eq_true]
  refine or_congr_right (exists_congr fun i => and_congr_right fun _ => ?_)
  split <;> simp

theorem importedName?_eq_some (h : u.importedName? n = some q) :
    ∃ i ∈ u.imports, i.onDemand = false ∧ i.name = q ∧ Text.lastSegment q = n := by
  obtain ⟨i, hi, rfl⟩ := Option.map_eq_some_iff.mp h
  have hp := List.find?_some hi
  simp only [Bool.and_eq_true, Bool.not_eq_true', beq_iff_eq] at hp
  exact ⟨i, List.mem_of_find?_eq_some hi, hp.1, rfl, hp.2⟩

theorem importedName?_eq_none (h : u.importedName? n = none) {i : ImportDecl} (hi : i ∈ u.imports)
    (ho : i.onDemand = false) : Text.lastSegment i.name ≠ n := by
  have := List.find?_eq_none.mp (Option.map_eq_none_iff.mp h) i hi
  simpa [ho, ImportDecl.simpleName] using this

/-- A simple name that is imported under a simple name is imported as it is. -/
theorem eq_of_importedName? (h : u.importedName? n = some q) (hq : Text.isDotted q = false) : q = n := by
  obtain ⟨-, -, -, -, hlast⟩ := importedName?_eq_some h
  rw [← hlast, Text.lastSegment_of_not_isDotted hq]

/-- A type with a simple name is in the unnamed package. -/
theorem name_of_qualifiedName (h : Text.isDotted t.qualifiedName = false) :
    t.qualifiedName = t.decl.name := by
  rw [qualifiedName] at h ⊢
  by_cases hp : t.packageName = ""
  · rw [hp, Text.qualify_empty]
  · rw [Text.isDotted_qualify hp] at h
    cases h

end CompilationUnit

/-- All units that use a simple name mean the same type by it: without an import
of the name they can mean only this one, and with one they import this one, or
declare it themselves. -/
structure Settled (us : List CompilationUnit) (n : String) (t : CompilationUnit) : Prop where
  named : t.decl.name = n
  unnamed : n ∈ us.map (·.qualifiedName) → t.qualifiedName = n
  plain : ∀ u ∈ us, u.Uses n → u.importedName? n = none → ∀ v ∈ us, v.decl.name = n →
    (u.MayMean v ↔ v.qualifiedName = t.qualifiedName)
  imported : ∀ u ∈ us, u.Uses n → ∀ q, u.importedName? n = some q →
    q = t.qualifiedName ∨ u.qualifiedName = t.qualifiedName

/-- What a unit means by a simple name does not depend on the order: an import
that gives it a meaning leads to a declared type and, if it leads to the unnamed
package, to no other type that the unit sees; any other name is settled. -/
structure Clear (us : List CompilationUnit) (u : CompilationUnit) (n : String) : Prop where
  imported : ∀ q, u.importedName? n = some q → q ∈ us.map (·.qualifiedName)
  unnamed : u.importedName? n = some n → ∀ v ∈ us, v.decl.name = n → u.sees v = true →
    v.qualifiedName = n ∨ v.qualifiedName = u.qualifiedName
  settled : u.importedName? n = none ∨ n ∈ us.map (·.qualifiedName) → ∃ t ∈ us, Settled us n t

/-- No simple name of a parent depends on the order of the units. -/
def OrderFree (us : List CompilationUnit) : Prop :=
  ∀ u ∈ us, ∀ n, u.Uses n → Text.isDotted n = false → Clear us u n

instance (us : List CompilationUnit) (n : String) (t : CompilationUnit) : Decidable (Settled us n t) :=
  decidable_of_iff
    (t.decl.name = n ∧ (n ∈ us.map (·.qualifiedName) → t.qualifiedName = n) ∧
      (∀ u ∈ us, u.Uses n → u.importedName? n = none → ∀ v ∈ us, v.decl.name = n →
        (u.MayMean v ↔ v.qualifiedName = t.qualifiedName)) ∧
      ∀ u ∈ us, u.Uses n → ∀ q ∈ u.importedName? n,
        q = t.qualifiedName ∨ u.qualifiedName = t.qualifiedName)
    ⟨fun ⟨h₁, h₂, h₃, h₄⟩ => ⟨h₁, h₂, h₃, h₄⟩, fun ⟨h₁, h₂, h₃, h₄⟩ => ⟨h₁, h₂, h₃, h₄⟩⟩

instance (us : List CompilationUnit) (u : CompilationUnit) (n : String) : Decidable (Clear us u n) :=
  decidable_of_iff
    ((∀ q ∈ u.importedName? n, q ∈ us.map (·.qualifiedName)) ∧
      (u.importedName? n = some n → ∀ v ∈ us, v.decl.name = n → u.sees v = true →
        v.qualifiedName = n ∨ v.qualifiedName = u.qualifiedName) ∧
      (u.importedName? n = none ∨ n ∈ us.map (·.qualifiedName) → ∃ t ∈ us, Settled us n t))
    ⟨fun ⟨h₁, h₂, h₃⟩ => ⟨h₁, h₂, h₃⟩, fun ⟨h₁, h₂, h₃⟩ => ⟨h₁, h₂, h₃⟩⟩

instance (us : List CompilationUnit) : Decidable (OrderFree us) :=
  decidable_of_iff (∀ u ∈ us, ∀ p ∈ u.decl.parents, Text.isDotted p.2 = false → Clear us u p.2)
    ⟨fun h u hu _ ⟨p, hp, hn⟩ => hn ▸ h u hu p hp, fun h u hu p hp => h u hu p.2 ⟨p, hp, rfl⟩⟩

/-! ### Where parents end up -/

/-- A program whose simple names have been given their meanings. -/
structure Meaning (us : List CompilationUnit) (means : String → CompilationUnit) : Prop where
  free : OrderFree us
  simple : ∀ u ∈ us, Text.isDotted u.decl.name = false
  distinct : (us.map (·.qualifiedName)).Nodup
  dotted : ∀ u ∈ us, ∀ n, u.Uses n → Text.isDotted n = true → n ∈ us.map (·.qualifiedName)
  noSelf : ∀ u ∈ us, ¬ u.Uses u.qualifiedName
  settled : ∀ u ∈ us, ∀ n, u.Uses n → Text.isDotted n = false →
    u.importedName? n = none ∨ n ∈ us.map (·.qualifiedName) → means n ∈ us ∧ Settled us n (means n)

/-- The type that the name of a parent stands for in the end. -/
def destination (means : String → CompilationUnit) (u : CompilationUnit) (n : String) : String :=
  if Text.isDotted n then n else (u.importedName? n).getD (means n).qualifiedName

/-- A simple name that no type has, while the type it means is not among those
declared. -/
structure Pending (us : List CompilationUnit) (means : String → CompilationUnit)
    (done : List CompilationUnit) (n : String) : Prop where
  simple : Text.isDotted n = false
  undeclared : n ∉ us.map (·.qualifiedName)
  plain : ∃ v ∈ us, v.Uses n ∧ v.importedName? n = none
  ahead : ∀ v ∈ done, v.qualifiedName ≠ (means n).qualifiedName

/-- A parent has the name it ends up with, or waits as a placeholder for the
type that it means. -/
def Placed (us : List CompilationUnit) (means : String → CompilationUnit)
    (done : List CompilationUnit) (u : CompilationUnit) (n x : String) : Prop :=
  x = destination means u n ∨
    (x = n ∧ Pending us means done n ∧ destination means u n = (means n).qualifiedName)

/-- A roster of units that are being declared. Every placeholder that waits is
named by a unit without an import of it. -/
structure Underway (us : List CompilationUnit) (means : String → CompilationUnit)
    (done : List CompilationUnit) (t : Roster) : Prop where
  units : ∀ e ∈ t, e.unit ∈ done
  sub : ∀ v ∈ done, v ∈ us
  placed : ∀ e ∈ t, List.Forall₂ (fun p q => p.1 = q.1 ∧ Placed us means done e.unit p.2 q.2)
    e.unit.decl.parents e.parents
  plain : ∀ n, t.mentions n = true → n ∉ us.map (·.qualifiedName) →
    ∃ e ∈ t, e.names n = true ∧ e.unit.Uses n ∧ e.unit.importedName? n = none

theorem forall₂_of_mem_right {α β : Type} {R : α → β → Prop} {l : List α} {l' : List β} {b : β}
    (h : List.Forall₂ R l l') (hb : b ∈ l') : ∃ a ∈ l, R a b := by
  induction h with
  | nil => cases hb
  | cons hab _ ih =>
    rcases List.mem_cons.mp hb with rfl | hb
    · exact ⟨_, List.mem_cons_self, hab⟩
    · obtain ⟨a, ha, hr⟩ := ih hb
      exact ⟨a, List.mem_cons_of_mem _ ha, hr⟩

theorem forall₂_of_mem_left {α β : Type} {R : α → β → Prop} {l : List α} {l' : List β} {a : α}
    (h : List.Forall₂ R l l') (ha : a ∈ l) : ∃ b ∈ l', R a b :=
  forall₂_of_mem_right h.flip ha

theorem forall₂_imp_of_mem {α β : Type} {R S : α → β → Prop} {l : List α} {l' : List β}
    (h : List.Forall₂ R l l') (himp : ∀ a ∈ l, ∀ b ∈ l', R a b → S a b) : List.Forall₂ S l l' := by
  induction h with
  | nil => exact .nil
  | cons hab _ ih =>
    refine .cons (himp _ List.mem_cons_self _ List.mem_cons_self hab) (ih fun a ha b hb => ?_)
    exact himp a (List.mem_cons_of_mem _ ha) b (List.mem_cons_of_mem _ hb)

/-- Names that stand for themselves are entered as they are. -/
theorem Enrolled.Faithful.names_of_uses {e : Enrolled} {n : String} (h : e.Faithful)
    (hn : e.unit.Uses n) (hself : Text.isDotted n = true ∨ n = e.unit.qualifiedName) :
    e.names n = true := by
  obtain ⟨p, hp, rfl⟩ := hn
  obtain ⟨q, hq, -, heq⟩ := forall₂_of_mem_left h.parents hp
  exact Enrolled.names_of_mem hq (heq hself)

section program
variable {us done : List CompilationUnit} {means : String → CompilationUnit} {t t' : Roster}
  {u : CompilationUnit} {n x : String}

theorem Underway.exists_placed (h : Underway us means done t) {e : Enrolled} (he : e ∈ t)
    (hx : e.names x = true) : ∃ n, e.unit.Uses n ∧ Placed us means done e.unit n x := by
  simp only [Enrolled.names, List.any_eq_true, decide_eq_true_eq] at hx
  obtain ⟨q, hq, rfl⟩ := hx
  obtain ⟨p, hp, -, hplaced⟩ := forall₂_of_mem_right (h.placed e he) hq
  exact ⟨p.2, ⟨p, hp, rfl⟩, hplaced⟩

namespace Meaning

variable (M : Meaning us means)
include M

theorem settled_of_pending (h : Pending us means done n) : means n ∈ us ∧ Settled us n (means n) := by
  obtain ⟨v, hv, huses, hnone⟩ := h.plain
  exact M.settled v hv n huses h.simple (.inl hnone)

/-- Parents end up at declared types. -/
theorem destination_mem (hu : u ∈ us) (hn : u.Uses n) :
    destination means u n ∈ us.map (·.qualifiedName) := by
  rw [destination]
  rcases hd : Text.isDotted n
  · simp only [Bool.false_eq_true, if_false]
    rcases hi : u.importedName? n with _ | q
    · exact List.mem_map_of_mem (M.settled u hu n hn hd (.inl hi)).1
    · exact (M.free u hu n hn hd).imported q hi
  · exact M.dotted u hu n hn hd

theorem mem_or_pending_of_placed (hu : u ∈ us) (hn : u.Uses n) (h : Placed us means done u n x) :
    x ∈ us.map (·.qualifiedName) ∨ Pending us means done x := by
  rcases h with rfl | ⟨rfl, hp, -⟩
  · exact .inl (M.destination_mem hu hn)
  · exact .inr hp

/-- Known names are declared sooner or later, or wait. -/
theorem mem_or_pending (h : Underway us means done t) (hx : t.knows x = true) :
    x ∈ us.map (·.qualifiedName) ∨ Pending us means done x := by
  rcases Roster.knows_iff.mp hx with hd | hm
  · obtain ⟨e, he, rfl⟩ := Roster.declares_iff.mp hd
    exact .inl (List.mem_map_of_mem (h.sub _ (h.units e he)))
  · obtain ⟨e, he, hx⟩ := Roster.mentions_iff.mp hm
    obtain ⟨n, hn, hplaced⟩ := h.exists_placed he hx
    exact M.mem_or_pending_of_placed (h.sub _ (h.units e he)) hn hplaced

/-- A simple name is a destination only of itself. -/
theorem eq_of_destination (hu : u ∈ us) (hn : u.Uses n) (hx : Text.isDotted x = false)
    (h : destination means u n = x) : n = x ∧
      (u.importedName? x = some x ∨ (u.importedName? x = none ∧ (means x).qualifiedName = x)) := by
  rw [destination] at h
  rcases hd : Text.isDotted n
  · simp only [hd, Bool.false_eq_true, if_false] at h
    rcases hi : u.importedName? n with _ | q
    · rw [hi, Option.getD_none] at h
      obtain ⟨-, hsettled⟩ := M.settled u hu n hn hd (.inl hi)
      have hname := CompilationUnit.name_of_qualifiedName (t := means n) (h ▸ hx)
      rw [hsettled.named, h] at hname
      subst hname
      exact ⟨rfl, .inr ⟨hi, h⟩⟩
    · rw [hi, Option.getD_some] at h
      subst h
      obtain rfl := CompilationUnit.eq_of_importedName? hi hx
      exact ⟨rfl, .inl hi⟩
  · simp only [hd, if_true] at h
    rw [h, hx] at hd
    cases hd

/-! ### Folding -/

/-- Only the type that a placeholder waits for can fold it. -/
theorem pending_of_foldsInto (h : Underway us means done t) (hu : u ∈ us)
    (hnew : ∀ v ∈ done, v.qualifiedName ≠ u.qualifiedName) (hf : t.foldsInto u = true) :
    Pending us means done u.decl.name ∧ (means u.decl.name).qualifiedName = u.qualifiedName := by
  obtain ⟨hne, -, hm, hsees⟩ := Roster.foldsInto_iff.mp hf
  have hsimple := M.simple u hu
  obtain ⟨e, he, hx⟩ := Roster.mentions_iff.mp hm
  obtain ⟨n, hn, hplaced⟩ := h.exists_placed he hx
  have hmem := h.sub _ (h.units e he)
  rcases hplaced with hdest | ⟨rfl, hp, -⟩
  · -- a unit that ends up at the simple name itself sees no other type of that name
    obtain ⟨rfl, himp | ⟨himp, hmeans⟩⟩ := M.eq_of_destination hmem hn hsimple hdest.symm
    · rcases (M.free _ hmem _ hn hsimple).unnamed himp u hu rfl (hsees e he hx) with h' | h'
      · exact absurd h' hne
      · exact absurd h'.symm (hnew _ (h.units e he))
    · obtain ⟨-, hsettled⟩ := M.settled _ hmem _ hn hsimple (.inl himp)
      have := (hsettled.plain _ hmem hn himp u hu rfl).mp (.inl (hsees e he hx))
      exact absurd (this.trans hmeans) hne
  · -- of the units that name the placeholder, one has no import of it
    obtain ⟨e', he', hx', hn', himp⟩ := h.plain _ hm hp.undeclared
    obtain ⟨-, hsettled⟩ := M.settled_of_pending hp
    have := (hsettled.plain _ (h.sub _ (h.units e' he')) hn' himp u hu rfl).mp (.inl (hsees e' he' hx'))
    exact ⟨hp, this.symm⟩

/-- The type that a placeholder waits for does fold it. -/
theorem foldsInto_of_pending (h : Underway us means done t) (hu : u ∈ us)
    (hp : Pending us means done u.decl.name)
    (hmeans : (means u.decl.name).qualifiedName = u.qualifiedName)
    (hm : t.mentions u.decl.name = true) : t.foldsInto u = true := by
  have hne : u.qualifiedName ≠ u.decl.name :=
    fun he => hp.undeclared (he ▸ List.mem_map_of_mem hu)
  have hdecl : t.declares u.decl.name = false := by
    rw [Bool.eq_false_iff]
    intro hd
    obtain ⟨e, he, hn⟩ := Roster.declares_iff.mp hd
    exact hp.undeclared (hn ▸ List.mem_map_of_mem (h.sub _ (h.units e he)))
  refine Roster.foldsInto_iff.mpr ⟨hne, hdecl, hm, fun e he hx => ?_⟩
  obtain ⟨n, hn, hplaced⟩ := h.exists_placed he hx
  have hmem := h.sub _ (h.units e he)
  rcases hplaced with hdest | ⟨hname, -, hdest⟩
  · exact absurd (hdest ▸ M.destination_mem hmem hn) hp.undeclared
  rw [← hname, hmeans, destination, hp.simple] at hdest
  simp only [Bool.false_eq_true, if_false] at hdest
  rw [← hname] at hn
  rcases himp : e.unit.importedName? u.decl.name with _ | q
  · obtain ⟨-, hsettled⟩ := M.settled_of_pending hp
    have := (hsettled.plain _ hmem hn himp u hu rfl).mpr hmeans.symm
    exact this.resolve_right hne
  · rw [himp, Option.getD_some] at hdest
    obtain ⟨i, hi, ho, hiq, -⟩ := CompilationUnit.importedName?_eq_some himp
    exact CompilationUnit.sees_iff.mpr (.inr ⟨i, hi, by simp [ho, hiq, hdest]⟩)

/-- A name waits only for a type that has it as its simple name. -/
theorem eq_name_of_pending (hu : u ∈ us) (hp : Pending us means done n)
    (he : u.qualifiedName = (means n).qualifiedName) : n = u.decl.name := by
  obtain ⟨hmem, hsettled⟩ := M.settled_of_pending hp
  rw [← hsettled.named]
  exact (Text.qualify_inj (M.simple u hu) (M.simple _ hmem) he).2.symm

omit M in
theorem pending_append (hp : Pending us means done n)
    (hne : u.qualifiedName ≠ (means n).qualifiedName) : Pending us means (done ++ [u]) n := by
  refine ⟨hp.simple, hp.undeclared, hp.plain, fun v hv => ?_⟩
  rcases List.mem_append.mp hv with hv | hv
  · exact hp.ahead v hv
  · rwa [List.mem_singleton.mp hv]

theorem underway_fold (h : Underway us means done t) (hu : u ∈ us)
    (hnew : ∀ v ∈ done, v.qualifiedName ≠ u.qualifiedName) (hf : t.fold? u = some t') :
    Underway us means (done ++ [u]) t' := by
  have hsub : ∀ v ∈ done ++ [u], v ∈ us := by
    intro v hv
    rcases List.mem_append.mp hv with hv | hv
    · exact h.sub v hv
    · rwa [List.mem_singleton.mp hv]
  rcases Roster.fold?_eq_some.mp hf with ⟨hno, rfl⟩ | ⟨hyes, rfl, -⟩
  · -- a name that waits for the unit would be folded into it
    refine ⟨fun e he => List.mem_append_left _ (h.units e he), hsub, fun e he => ?_, h.plain⟩
    refine forall₂_imp_of_mem (h.placed e he) ?_
    rintro p - q hq ⟨hr, hdest | ⟨hname, hp, hdest⟩⟩
    · exact ⟨hr, .inl hdest⟩
    refine ⟨hr, .inr ⟨hname, pending_append hp fun hmeans => ?_, hdest⟩⟩
    have hn := M.eq_name_of_pending hu hp hmeans
    rw [hn] at hp hmeans
    have hm : t'.mentions u.decl.name = true :=
      Roster.mentions_iff.mpr ⟨e, he, Enrolled.names_of_mem hq (hname.trans hn)⟩
    cases hno.symm.trans (M.foldsInto_of_pending h hu hp hmeans.symm hm)
  · obtain ⟨hp, hmeans⟩ := M.pending_of_foldsInto h hu hnew hyes
    refine ⟨?_, hsub, ?_, ?_⟩
    · intro e' he'
      obtain ⟨e, he, rfl⟩ := List.mem_map.mp he'
      exact List.mem_append_left _ (h.units e he)
    · intro e' he'
      obtain ⟨e, he, rfl⟩ := List.mem_map.mp he'
      have hmem := h.sub _ (h.units e he)
      refine List.forall₂_map_right_iff.mpr (forall₂_imp_of_mem (h.placed e he) ?_)
      rintro p hpmem q - ⟨hr, hdest | ⟨hname, hp', hdest⟩⟩
      · refine ⟨hr, .inl ?_⟩
        have hne : q.2 ≠ u.decl.name := by
          intro heq
          rw [heq] at hdest
          exact hp.undeclared (hdest ▸ M.destination_mem hmem ⟨p, hpmem, rfl⟩)
        exact (if_neg hne).trans hdest
      · by_cases heq : q.2 = u.decl.name
        · refine ⟨hr, .inl ((if_pos heq).trans ?_)⟩
          rw [hname] at heq
          rw [Enrolled.rename, hdest, heq, hmeans]
        · refine ⟨hr, .inr ⟨(if_neg heq).trans hname, pending_append hp' fun hmeans' => ?_, hdest⟩⟩
          exact heq (hname.trans (M.eq_name_of_pending hu hp' hmeans'))
    · intro n hm hund
      obtain ⟨e', he', hx⟩ := Roster.mentions_iff.mp hm
      obtain ⟨e, he, rfl⟩ := List.mem_map.mp he'
      rcases Enrolled.names_rename.mp hx with ⟨hx, hne⟩ | ⟨rfl, -⟩
      · obtain ⟨e₀, he₀, hx₀, huses, himp⟩ := h.plain n (Roster.mentions_iff.mpr ⟨e, he, hx⟩) hund
        exact ⟨_, List.mem_map_of_mem he₀, Enrolled.names_rename.mpr (.inl ⟨hx₀, hne⟩), huses, himp⟩
      · exact absurd (List.mem_map_of_mem hu) hund

/-! ### Looking parents up -/

section lookup
variable {known : String → Bool} (hu : u ∈ us) (hn : u.Uses n)
  (hknown : ∀ x, known x = true → x ∈ us.map (·.qualifiedName) ∨ Pending us means done x)

omit M in
include hknown in
/-- A known name with a package is that of a type. -/
theorem mem_of_known_qualify (hk : known n = false) {package : String}
    (hq : known (Text.qualify package n) = true) : Text.qualify package n ∈ us.map (·.qualifiedName) := by
  refine (hknown _ hq).resolve_right fun hp => ?_
  have hne : package ≠ "" := by
    rintro rfl
    rw [Text.qualify_empty, hk] at hq
    cases hq
  cases hp.simple.symm.trans (Text.isDotted_qualify hne n)

include hu hn

/-- A known type that the unit sees under a simple name is the one it means. -/
theorem destination_of_sees (hd : Text.isDotted n = false) (hi : u.importedName? n = none)
    {package : String} (hx : Text.qualify package n ∈ us.map (·.qualifiedName))
    (hsees : ∀ v : CompilationUnit, v.packageName = package → u.sees v = true) :
    Text.qualify package n = destination means u n := by
  obtain ⟨v, hv, hname⟩ := List.mem_map.mp hx
  obtain ⟨hpackage, hident⟩ := Text.qualify_inj (M.simple v hv) hd hname
  obtain ⟨-, hsettled⟩ := M.settled u hu n hn hd (.inl hi)
  have := (hsettled.plain u hu hn hi v hv hident).mp (.inl (hsees v hpackage))
  rw [destination, hd, hi, ← hname]
  exact this

/-- A placeholder that waits was known before, or is named without an import. -/
theorem plain_of_resolves (h : u.Resolves known n x) (hx : x ∉ us.map (·.qualifiedName)) :
    known x = true ∨ (u.Uses x ∧ u.importedName? x = none) := by
  cases h with
  | known hk => exact .inl hk
  | dotted hd => exact absurd (M.dotted u hu n hn hd) hx
  | imported _ hd hi => exact absurd ((M.free u hu n hn hd).imported _ hi) hx
  | onDemand _ _ _ _ _ hq => exact .inl hq
  | package _ _ _ hq => exact .inl hq
  | placeholder _ _ hi => exact .inr ⟨hn, hi⟩

include hknown

theorem placed_of_known (hdone : u ∈ done) (hk : known n = true) : Placed us means done u n n := by
  rcases hd : Text.isDotted n
  swap
  · exact .inl (by rw [destination, if_pos hd])
  have hdest : destination means u n = (u.importedName? n).getD (means n).qualifiedName := by
    rw [destination, hd]
    rfl
  rcases hknown n hk with hmem | hp
  · obtain ⟨-, hsettled⟩ := M.settled u hu n hn hd (.inr hmem)
    have hmeans := hsettled.unnamed hmem
    refine .inl ?_
    rw [hdest]
    rcases hi : u.importedName? n with _ | q
    · exact hmeans.symm
    · rcases hsettled.imported u hu hn q hi with hq | hq
      · exact (hq.trans hmeans).symm
      · exact absurd ((hq.trans hmeans) ▸ hn) (M.noSelf u hu)
  · obtain ⟨-, hsettled⟩ := M.settled_of_pending hp
    refine .inr ⟨rfl, hp, ?_⟩
    rw [hdest]
    rcases hi : u.importedName? n with _ | q
    · rfl
    · rcases hsettled.imported u hu hn q hi with hq | hq
      · exact hq
      · exact absurd hq (hp.ahead u hdone)

/-- A look-up leads to where the parent ends up, or to a placeholder that waits. -/
theorem placed_of_resolves (hdone : u ∈ done)
    (hdeclared : ∀ v ∈ done, known v.qualifiedName = true) (h : u.Resolves known n x) :
    Placed us means done u n x := by
  cases h with
  | known hk => exact M.placed_of_known hu hn hknown hdone hk
  | dotted hd => exact .inl (by rw [destination, if_pos hd])
  | imported _ hd hi =>
    refine .inl ?_
    rw [destination, hd, hi]
    rfl
  | @onDemand i hk hd hi hmem ho hq =>
    refine .inl (M.destination_of_sees hu hn hd hi (mem_of_known_qualify hknown hk hq) fun v hv => ?_)
    exact CompilationUnit.sees_iff.mpr (.inr ⟨i, hmem, by simp [ho, hv]⟩)
  | package hk hd hi hq =>
    refine .inl (M.destination_of_sees hu hn hd hi (mem_of_known_qualify hknown hk hq) fun v hv => ?_)
    exact CompilationUnit.sees_iff.mpr (.inl hv.symm)
  | placeholder hk hd hi ho hp =>
    obtain ⟨hmem, hsettled⟩ := M.settled u hu n hn hd (.inl hi)
    have hdest : destination means u n = (means n).qualifiedName := by
      rw [destination, hd, hi]
      rfl
    by_cases hdecl : n ∈ us.map (·.qualifiedName)
    · exact .inl (by rw [hdest, hsettled.unnamed hdecl])
    refine .inr ⟨rfl, ⟨hd, hdecl, ⟨u, hu, hn, hi⟩, fun v hv hname => ?_⟩, hdest⟩
    -- the type that the name means would have been found
    have hfound : known (means n).qualifiedName = true := hname ▸ hdeclared v hv
    have hqual : (means n).qualifiedName = Text.qualify (means n).packageName n := by
      rw [CompilationUnit.qualifiedName, hsettled.named]
    rcases (hsettled.plain u hu hn hi _ hmem hsettled.named).mpr rfl with hsees | hsees
    · rcases CompilationUnit.sees_iff.mp hsees with hpackage | ⟨i, himem, hi'⟩
      · rw [hqual, ← hpackage, hp] at hfound
        cases hfound
      · split at hi'
        · rw [hqual, ← hi', ho i himem ‹_›] at hfound
          cases hfound
        · rename_i ho'
          refine CompilationUnit.importedName?_eq_none hi himem (by simpa using ho') ?_
          rw [hi', hqual, Text.lastSegment_qualify _ hd]
    · rw [hsettled.named] at hsees
      exact hdecl (hsees ▸ List.mem_map_of_mem hmem)

end lookup

theorem mem_or_pending_entering (h : Underway us means done t) (hu : u ∈ us)
    {acc : List (Relation × String)}
    (hacc : ∀ q ∈ acc, q.2 ∈ us.map (·.qualifiedName) ∨ Pending us means done q.2) (y : String)
    (hy : Roster.knows (t ++ [⟨u, acc⟩]) y = true) :
    y ∈ us.map (·.qualifiedName) ∨ Pending us means done y := by
  rcases Roster.knows_append.mp hy with hy | rfl | ⟨q, hq, rfl⟩
  · exact M.mem_or_pending h hy
  · exact .inl (List.mem_map_of_mem hu)
  · exact hacc q hq

omit M in
theorem knows_entering {acc : List (Relation × String)}
    (hdeclared : ∀ v ∈ done, v = u ∨ t.declares v.qualifiedName = true) (v : CompilationUnit)
    (hv : v ∈ done) : Roster.knows (t ++ [⟨u, acc⟩]) v.qualifiedName = true := by
  rcases hdeclared v hv with rfl | hv
  · exact Roster.knows_append.mpr (.inr (.inl rfl))
  · exact Roster.knows_append.mpr (.inl (Roster.knows_iff.mpr (.inl hv)))

/-- Entering the parents of a unit keeps a roster underway. -/
theorem placed_of_linked (h : Underway us means done t) (hu : u ∈ us) (hdone : u ∈ done)
    (hdeclared : ∀ v ∈ done, v = u ∨ t.declares v.qualifiedName = true)
    {acc names ps : List (Relation × String)} (hl : t.Linked u acc names ps)
    (hnames : ∀ p ∈ names, p ∈ u.decl.parents)
    (hacc : ∀ q ∈ acc, q.2 ∈ us.map (·.qualifiedName) ∨ Pending us means done q.2)
    (hplain : ∀ q ∈ acc, q.2 ∉ us.map (·.qualifiedName) →
      t.mentions q.2 = true ∨ (u.Uses q.2 ∧ u.importedName? q.2 = none)) :
    List.Forall₂ (fun p q => p.1 = q.1 ∧ Placed us means done u p.2 q.2) names ps ∧
      ∀ q ∈ ps, q.2 ∉ us.map (·.qualifiedName) →
        t.mentions q.2 = true ∨ (u.Uses q.2 ∧ u.importedName? q.2 = none) := by
  induction hl with
  | nil => exact ⟨.nil, nofun⟩
  | @cons acc names ps r n x hx _ _ ih =>
    have hn : u.Uses n := ⟨(r, n), hnames _ List.mem_cons_self, rfl⟩
    have hplaced := M.placed_of_resolves hu hn (M.mem_or_pending_entering h hu hacc) hdone
      (knows_entering hdeclared) hx
    have hxplain : x ∉ us.map (·.qualifiedName) →
        t.mentions x = true ∨ (u.Uses x ∧ u.importedName? x = none) := by
      intro hund
      rcases M.plain_of_resolves hu hn hx hund with hk | hp
      · rcases Roster.knows_append.mp hk with hk | rfl | ⟨q, hq, rfl⟩
        · rcases Roster.knows_iff.mp hk with hd | hm
          · obtain ⟨e, he, rfl⟩ := Roster.declares_iff.mp hd
            exact absurd (List.mem_map_of_mem (h.sub _ (h.units e he))) hund
          · exact .inl hm
        · exact absurd (List.mem_map_of_mem hu) hund
        · exact hplain q hq hund
      · exact .inr hp
    obtain ⟨hrest, hrestplain⟩ := ih (fun p hp => hnames p (List.mem_cons_of_mem _ hp))
      (by
        intro q hq
        rcases List.mem_append.mp hq with hq | hq
        · exact hacc q hq
        · rw [List.mem_singleton.mp hq]
          exact M.mem_or_pending_of_placed hu hn hplaced)
      (by
        intro q hq
        rcases List.mem_append.mp hq with hq | hq
        · exact hplain q hq
        · rw [List.mem_singleton.mp hq]
          exact hxplain)
    exact ⟨.cons ⟨rfl, hplaced⟩ hrest, List.forall_mem_cons.mpr ⟨hxplain, hrestplain⟩⟩

/-- A declaration that succeeds keeps a roster underway. -/
theorem underway_declare (h : Underway us means (t.map (·.unit)) t) (hu : u ∈ us)
    (hd : t.declare? u = some t') : Underway us means (t'.map (·.unit)) t' := by
  obtain ⟨-, hfresh, t₁, ps, hf, hl, rfl⟩ := Roster.declare?_eq_some hd
  have hnew := Roster.ne_of_not_declares hfresh
  have h₁ := M.underway_fold h hu hnew hf
  obtain ⟨hplaced, hplain⟩ := M.placed_of_linked h₁ hu (by simp) (Roster.declares_of_fold? hf) hl
    (fun _ h => h) nofun nofun
  rw [List.map_append, Roster.map_unit_fold? hf]
  refine ⟨?_, h₁.sub, ?_, ?_⟩
  · intro e he
    rcases List.mem_append.mp he with he | he
    · exact h₁.units e he
    · rw [List.mem_singleton.mp he]
      simp
  · intro e he
    rcases List.mem_append.mp he with he | he
    · exact h₁.placed e he
    · rw [List.mem_singleton.mp he]
      exact hplaced
  · intro n hm hund
    have hold : t₁.mentions n = true → ∃ e ∈ t₁ ++ [⟨u, ps⟩], e.names n = true ∧ e.unit.Uses n ∧
        e.unit.importedName? n = none := by
      intro hm
      obtain ⟨e, he, hrest⟩ := h₁.plain n hm hund
      exact ⟨e, List.mem_append_left _ he, hrest⟩
    obtain ⟨e, he, hx⟩ := Roster.mentions_iff.mp hm
    rcases List.mem_append.mp he with he | he
    · exact hold (Roster.mentions_iff.mpr ⟨e, he, hx⟩)
    · obtain rfl := List.mem_singleton.mp he
      simp only [Enrolled.names, List.any_eq_true, decide_eq_true_eq] at hx
      obtain ⟨q, hq, rfl⟩ := hx
      rcases hplain q hq hund with hm | hp
      · exact hold hm
      · exact ⟨_, List.mem_append_right _ (List.mem_singleton_self _), Enrolled.names_of_mem hq rfl, hp⟩

theorem underway_run (h : Underway us means (t.map (·.unit)) t) {vs : List CompilationUnit}
    (hvs : ∀ v ∈ vs, v ∈ us) (hr : t.run? vs = some t') : Underway us means (t'.map (·.unit)) t' :=
  Roster.run?_inv (I := fun t => Underway us means (t.map (·.unit)) t)
    (fun _ v _ hv h hd => M.underway_declare h (hvs v hv) hd) h hr

/-! ### Runs that succeed -/

end Meaning

/-- The declared type that a name of a roster leads to. -/
def settledName (us : List CompilationUnit) (means : String → CompilationUnit) (x : String) : String :=
  if x ∈ us.map (·.qualifiedName) then x else (means x).qualifiedName

namespace Meaning

variable (M : Meaning us means)
include M

theorem settledName_of_placed (hu : u ∈ us) (hn : u.Uses n) (h : Placed us means done u n x) :
    settledName us means x = destination means u n := by
  rcases h with rfl | ⟨rfl, hp, hdest⟩
  · exact if_pos (M.destination_mem hu hn)
  · rw [hdest]
    exact if_neg hp.undeclared

theorem map_settledName (h : Underway us means done t) {e : Enrolled} (he : e ∈ t) :
    e.parents.map (fun q => settledName us means q.2) =
      e.unit.decl.parents.map fun p => destination means e.unit p.2 := by
  have hmem := h.sub _ (h.units e he)
  have := forall₂_imp_of_mem (S := fun p q => destination means e.unit p.2 = settledName us means q.2)
    (h.placed e he) fun p hp q _ hpq => (M.settledName_of_placed hmem ⟨p, hp, rfl⟩ hpq.2).symm
  rw [← List.forall₂_eq_eq_eq, List.forall₂_map_left_iff, List.forall₂_map_right_iff]
  exact this.flip.imp fun _ _ h => h.symm

section distinct
variable (hdistinct : ∀ v ∈ us, (v.decl.parents.map fun p => destination means v p.2).Nodup)
include hdistinct

theorem exists_fold (h : Underway us means done t) (hu : u ∈ us)
    (hnew : ∀ v ∈ done, v.qualifiedName ≠ u.qualifiedName) : ∃ t', t.fold? u = some t' := by
  rcases hf : t.foldsInto u
  · exact ⟨t, Roster.fold?_eq_some.mpr (.inl ⟨hf, rfl⟩)⟩
  obtain ⟨hp, hmeans⟩ := M.pending_of_foldsInto h hu hnew hf
  refine ⟨_, Roster.fold?_eq_some.mpr (.inr ⟨hf, rfl, fun e he hx => ?_⟩)⟩
  rw [Bool.eq_false_iff]
  intro hy
  simp only [Enrolled.names, List.any_eq_true, decide_eq_true_eq] at hx hy
  obtain ⟨q, hq, hqx⟩ := hx
  obtain ⟨q', hq', hqy⟩ := hy
  -- two parents of one unit would end up at the same type
  have hnodup := hdistinct _ (h.sub _ (h.units e he))
  rw [← M.map_settledName h he] at hnodup
  have hsame : settledName us means q.2 = settledName us means q'.2 := by
    rw [hqx, hqy, settledName, if_neg hp.undeclared, hmeans, settledName,
      if_pos (List.mem_map_of_mem hu)]
  have heq := List.inj_on_of_nodup_map hnodup hq hq' hsame
  rw [← heq, hqx] at hqy
  exact hp.undeclared (hqy ▸ List.mem_map_of_mem hu)

theorem exists_link (h : Underway us means done t) (hu : u ∈ us) (hdone : u ∈ done)
    (hdeclared : ∀ v ∈ done, v = u ∨ t.declares v.qualifiedName = true) :
    ∀ (names before acc : List (Relation × String)), before ++ names = u.decl.parents →
      (∀ q ∈ acc, q.2 ∈ us.map (·.qualifiedName) ∨ Pending us means done q.2) →
      acc.map (fun q => settledName us means q.2) = before.map (fun p => destination means u p.2) →
      ∃ t', t.link? u acc names = some t'
  | [], _, acc, _, _, _ => ⟨_, rfl⟩
  | (r, n) :: names, before, acc, hsplit, hacc, hmap => by
    have hn : u.Uses n := ⟨(r, n), hsplit ▸ List.mem_append_right _ List.mem_cons_self, rfl⟩
    have hx := u.resolves_resolve (Roster.knows (t ++ [⟨u, acc⟩])) n
    rw [Roster.link?]
    generalize u.resolve (Roster.knows (t ++ [⟨u, acc⟩])) n = x at hx
    have hplaced := M.placed_of_resolves hu hn (M.mem_or_pending_entering h hu hacc) hdone
      (knows_entering hdeclared) hx
    have hsettled := M.settledName_of_placed hu hn hplaced
    have hany : acc.any (·.2 = x) = false := by
      rw [Bool.eq_false_iff]
      intro hany
      simp only [List.any_eq_true, decide_eq_true_eq] at hany
      obtain ⟨q, hq, rfl⟩ := hany
      have hin : settledName us means q.2 ∈ acc.map fun q => settledName us means q.2 :=
        List.mem_map_of_mem (f := fun q : Relation × String => settledName us means q.2) hq
      rw [hmap, hsettled] at hin
      have hnodup := hdistinct u hu
      rw [← hsplit, List.map_append, List.nodup_append] at hnodup
      exact hnodup.2.2 _ hin _ List.mem_cons_self rfl
    rw [if_neg (by simp [hany])]
    refine exists_link h hu hdone hdeclared names (before ++ [(r, n)]) (acc ++ [(r, x)])
      (by simpa using hsplit) ?_ ?_
    · intro q hq
      rcases List.mem_append.mp hq with hq | hq
      · exact hacc q hq
      · rw [List.mem_singleton.mp hq]
        exact M.mem_or_pending_of_placed hu hn hplaced
    · simp [hmap, hsettled]

theorem exists_declare (h : Underway us means (t.map (·.unit)) t) (hu : u ∈ us)
    (hblank : Text.isBlank u.decl.name = false) (hfresh : t.declares u.qualifiedName = false) :
    ∃ t', t.declare? u = some t' := by
  have hnew := Roster.ne_of_not_declares hfresh
  obtain ⟨t₁, hf⟩ := M.exists_fold hdistinct h hu hnew
  have h₁ := M.underway_fold h hu hnew hf
  obtain ⟨t₂, hl⟩ := M.exists_link hdistinct h₁ hu (by simp)
    (Roster.declares_of_fold? hf) u.decl.parents [] [] rfl nofun rfl
  refine ⟨t₂, ?_⟩
  rw [Roster.declare?, hblank, hfresh, hf]
  exact hl

theorem exists_run (hblank : ∀ v ∈ us, Text.isBlank v.decl.name = false) :
    ∀ (vs : List CompilationUnit) {t : Roster}, Underway us means (t.map (·.unit)) t →
      (∀ v ∈ vs, v ∈ us) → ((t.map (·.unit) ++ vs).map (·.qualifiedName)).Nodup →
      ∃ t', t.run? vs = some t'
  | [], t, _, _, _ => ⟨t, rfl⟩
  | v :: vs, t, h, hvs, hnodup => by
    obtain ⟨hv, hvs⟩ := List.forall_mem_cons.mp hvs
    have hfresh : t.declares v.qualifiedName = false := by
      rw [Bool.eq_false_iff]
      intro hd
      obtain ⟨e, he, hname⟩ := Roster.declares_iff.mp hd
      rw [List.map_append, List.nodup_append] at hnodup
      exact hnodup.2.2 _ (List.mem_map_of_mem (List.mem_map_of_mem he)) _ List.mem_cons_self hname
    obtain ⟨t₁, hd⟩ := M.exists_declare hdistinct h hv (hblank v hv) hfresh
    have hunits := Roster.map_unit_declare? hd
    obtain ⟨t', hr⟩ := exists_run hblank vs (M.underway_declare h hv hd) hvs (by
      rw [hunits]
      simpa using hnodup)
    exact ⟨t', by rw [Roster.run?, hd]; exact hr⟩

end distinct

/-- When all units are declared, every parent is where it ends up. -/
theorem parents_eq (h : Underway us means (t.map (·.unit)) t) (hall : (t.map (·.unit)).Perm us)
    {e : Enrolled} (he : e ∈ t) :
    e.parents = e.unit.decl.parents.map fun p => (p.1, destination means e.unit p.2) := by
  rw [← List.forall₂_eq_eq_eq, List.forall₂_map_right_iff]
  refine (h.placed e he).flip.imp ?_
  rintro q p ⟨hr, hdest | ⟨-, hp, -⟩⟩
  · exact Prod.ext hr.symm hdest
  · exact absurd rfl (hp.ahead _ (hall.mem_iff.mpr (M.settled_of_pending hp).1))

theorem eq_map_of_underway (h : Underway us means (t.map (·.unit)) t)
    (hall : (t.map (·.unit)).Perm us) :
    t = (t.map (·.unit)).map fun u =>
      ⟨u, u.decl.parents.map fun p => (p.1, destination means u p.2)⟩ := by
  rw [List.map_map]
  refine (List.map_id t).symm.trans (List.map_congr_left fun e he => ?_)
  rw [Function.comp_apply, ← M.parents_eq h hall he]
  rfl

end Meaning

/-- Meanings can be chosen for a program that has been run without placeholders
or units that are their own parents. -/
theorem OrderFree.exists_meaning (hfree : OrderFree us)
    (hsimple : ∀ u ∈ us, Text.isDotted u.decl.name = false) (hrun : Roster.run? [] us = some t)
    (hclosed : t.Closed) (hself : ∀ e ∈ t, e.names e.unit.qualifiedName = false) :
    ∃ means, Meaning us means := by
  have hunits := Roster.units_of_run? hrun
  have hfaithful := Roster.faithful_run? hsimple hrun
  have hentry : ∀ u ∈ us, ∃ e ∈ t, e.unit = u := by
    intro u hu
    rw [← hunits] at hu
    exact List.mem_map.mp hu
  have hchoice : ∀ n, ∃ m : CompilationUnit, (∃ t ∈ us, Settled us n t) → m ∈ us ∧ Settled us n m := by
    intro n
    by_cases h : ∃ t ∈ us, Settled us n t
    · obtain ⟨m, hm⟩ := h
      exact ⟨m, fun _ => hm⟩
    · exact ⟨.plainClass "" "" none, fun h' => absurd h' h⟩
  choose means hmeans using hchoice
  refine ⟨means, hfree, hsimple, hunits ▸ Roster.distinct_run? hrun, ?_, ?_, ?_⟩
  · intro u hu n hn hd
    obtain ⟨e, he, rfl⟩ := hentry u hu
    have := hclosed n (Roster.mentions_iff.mpr ⟨e, he, (hfaithful e he).names_of_uses hn (.inl hd)⟩)
    obtain ⟨e', he', rfl⟩ := Roster.declares_iff.mp this
    rw [← hunits]
    exact List.mem_map_of_mem (List.mem_map_of_mem he')
  · intro u hu hn
    obtain ⟨e, he, rfl⟩ := hentry u hu
    cases (hself e he).symm.trans ((hfaithful e he).names_of_uses hn (.inr rfl))
  · intro u hu n hn hd hor
    exact hmeans n ((hfree u hu n hn hd).settled hor)

/-- A program that does not depend on the order can be run in any order, and
every run ends in the same entries. -/
theorem OrderFree.run?_perm (hfree : OrderFree us)
    (hsimple : ∀ u ∈ us, Text.isDotted u.decl.name = false) (hrun : Roster.run? [] us = some t)
    (hclosed : t.Closed) (hself : ∀ e ∈ t, e.names e.unit.qualifiedName = false)
    {us' : List CompilationUnit} (hperm : us'.Perm us) :
    ∃ t', Roster.run? [] us' = some t' ∧ t'.Perm t := by
  obtain ⟨means, M⟩ := hfree.exists_meaning hsimple hrun hclosed hself
  have hunits := Roster.units_of_run? hrun
  have hstart : Underway us means (([] : Roster).map (·.unit)) [] :=
    ⟨by simp, nofun, by simp, nofun⟩
  have hend := M.underway_run hstart (fun _ h => h) hrun
  have hall : (t.map (·.unit)).Perm us := hunits ▸ .refl _
  have hdistinct : ∀ v ∈ us, (v.decl.parents.map fun p => destination means v p.2).Nodup := by
    intro v hv
    rw [← hunits] at hv
    obtain ⟨e, he, rfl⟩ := List.mem_map.mp hv
    have := (Roster.faithful_run? hsimple hrun e he).distinct
    rwa [M.parents_eq hend hall he, List.map_map] at this
  obtain ⟨t', hrun'⟩ := M.exists_run hdistinct (Roster.not_isBlank_run? hrun) us' hstart
    (fun v hv => hperm.mem_iff.mp hv) ((hperm.map _).nodup_iff.mpr M.distinct)
  have hunits' := Roster.units_of_run? hrun'
  have hend' := M.underway_run hstart (fun v hv => hperm.mem_iff.mp hv) hrun'
  refine ⟨t', hrun', ?_⟩
  rw [M.eq_map_of_underway hend hall, M.eq_map_of_underway hend' (hunits' ▸ hperm), hunits, hunits']
  exact hperm.map _

end program

end ClassCompiler
