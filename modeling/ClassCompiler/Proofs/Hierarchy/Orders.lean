import ClassCompiler.Proofs.Hierarchy.ByName
import ClassCompiler.Proofs.Hierarchy.OrderFree

/-!
# Programs that all orders agree on

If a program ends in the same entries in whatever order its units are declared,
then what its parents are called is settled. Each condition is read off one or
two orders: a unit that comes first looks its parents up in an empty program, a
unit that comes second can fold the placeholders of the first or finds its name
known, and a unit that comes last is not renamed any more.

Key definitions: `Enrolled.Leads`, `Roster.Renaming`, `Roster.Finds`, `Stable`.

Key theorems: `Roster.exists_renaming`, `Stable.enter`, `Stable.orderFree`,
`check_perm_iff_orderFree`.
-/

namespace ClassCompiler

namespace Enrolled

variable {e : Enrolled} {n x : String} {φ : String → String}

/-- The parent that a unit calls `n` is entered as `x`. -/
def Leads (e : Enrolled) (n x : String) : Prop :=
  ∃ p q, (p, q) ∈ e.unit.decl.parents.zip e.parents ∧ p.2 = n ∧ q.2 = x

def mapNames (φ : String → String) (e : Enrolled) : Enrolled :=
  { e with parents := e.parents.map fun p => (p.1, φ p.2) }

theorem rename_eq (old new : String) (e : Enrolled) :
    e.rename old new = e.mapNames fun x => if x = old then new else x := rfl

theorem leads_mapNames : (e.mapNames φ).Leads n x ↔ ∃ y, e.Leads n y ∧ x = φ y := by
  simp only [Leads, mapNames, List.zip_map_right, List.mem_map]
  constructor
  · rintro ⟨-, -, ⟨⟨p, q⟩, hpq, ⟨⟩⟩, hn, rfl⟩
    exact ⟨q.2, ⟨p, q, hpq, hn, rfl⟩, rfl⟩
  · rintro ⟨-, ⟨p, q, hpq, hn, rfl⟩, rfl⟩
    exact ⟨p, (q.1, φ q.2), ⟨(p, q), hpq, rfl⟩, hn, rfl⟩

theorem Leads.uses (h : e.Leads n x) : e.unit.Uses n := by
  obtain ⟨p, q, hpq, hn, -⟩ := h
  exact ⟨p, (List.of_mem_zip hpq).1, hn⟩

theorem Leads.names (h : e.Leads n x) : e.names x = true := by
  obtain ⟨p, q, hpq, -, hx⟩ := h
  exact names_of_mem (List.of_mem_zip hpq).2 hx

theorem Faithful.exists_leads (h : e.Faithful) (hn : e.unit.Uses n) : ∃ x, e.Leads n x := by
  obtain ⟨p, hp, rfl⟩ := hn
  have hlen := h.parents.length_eq
  obtain ⟨k, hk, rfl⟩ := List.mem_iff_getElem.mp hp
  exact ⟨_, _, e.parents[k], List.mem_iff_getElem.mpr ⟨k, by simp; omega, by simp⟩, rfl, rfl⟩

end Enrolled

namespace Roster

variable {t t' : Roster} {u : CompilationUnit} {vs : List CompilationUnit} {n x : String}

/-! ### Renaming -/

/-- What the declaration of further units does to the names of a roster. A
simple name that is not declared may be folded into one of the units, and all
that name it see the unit. -/
structure Renaming (t : Roster) (vs : List CompilationUnit) (φ : String → String) : Prop where
  kept : ∀ x, Text.isDotted x = true ∨ t.declares x = true → φ x = x
  folded : ∀ x, φ x = x ∨ ∃ v ∈ vs, v.decl.name = x ∧ φ x = v.qualifiedName ∧
    ∀ e ∈ t, e.names x = true → e.unit.sees v = true
  next : ∀ v ∈ vs.head?, t.foldsInto v = true → φ v.decl.name = v.qualifiedName

theorem Renaming.cons_of_not_foldsInto {φ : String → String} {ps : List (Relation × String)}
    (hr : Renaming (t ++ [⟨u, ps⟩]) vs φ) (hf : t.foldsInto u = false) : Renaming t (u :: vs) φ := by
  refine ⟨fun x hx => hr.kept x (hx.imp_right fun hd => ?_), fun x => ?_, ?_⟩
  · obtain ⟨e, he, hn⟩ := declares_iff.mp hd
    exact declares_iff.mpr ⟨e, List.mem_append_left _ he, hn⟩
  · refine (hr.folded x).imp_right ?_
    rintro ⟨v, hv, hname, hφ, hsees⟩
    exact ⟨v, List.mem_cons_of_mem _ hv, hname, hφ, fun e he => hsees e (List.mem_append_left _ he)⟩
  · intro v hv hyes
    obtain rfl := Option.some.inj hv
    cases hf.symm.trans hyes

theorem Renaming.cons_of_foldsInto {φ : String → String} {ps : List (Relation × String)}
    (hu : Text.isDotted u.decl.name = false)
    (hr : Renaming (t.map (.rename u.decl.name u.qualifiedName) ++ [⟨u, ps⟩]) vs φ)
    (hf : t.foldsInto u = true) :
    Renaming t (u :: vs) fun x => φ (if x = u.decl.name then u.qualifiedName else x) := by
  obtain ⟨-, hund, -, hsees⟩ := foldsInto_iff.mp hf
  have hown : φ u.qualifiedName = u.qualifiedName :=
    hr.kept _ (.inr (declares_iff.mpr ⟨_, List.mem_append_right _ (List.mem_singleton_self _), rfl⟩))
  refine ⟨fun x hx => ?_, fun x => ?_, ?_⟩
  · have hne : x ≠ u.decl.name := by
      rintro rfl
      simp [hu, hund] at hx
    rw [if_neg hne]
    refine hr.kept x (hx.imp_right fun hd => ?_)
    obtain ⟨e, he, hn⟩ := declares_iff.mp hd
    exact declares_iff.mpr ⟨_, List.mem_append_left _ (List.mem_map_of_mem he), hn⟩
  · by_cases hx : x = u.decl.name
    · subst hx
      exact .inr ⟨u, List.mem_cons_self, rfl, by rw [if_pos rfl, hown], hsees⟩
    · rw [if_neg hx]
      refine (hr.folded x).imp_right ?_
      rintro ⟨v, hv, hname, hφ, hall⟩
      refine ⟨v, List.mem_cons_of_mem _ hv, hname, hφ, fun e he hn => ?_⟩
      exact hall (e.rename u.decl.name u.qualifiedName)
        (List.mem_append_left _ (List.mem_map_of_mem he)) (Enrolled.names_rename.mpr (.inl ⟨hn, hx⟩))
  · intro v hv _
    obtain rfl := Option.some.inj hv
    rw [if_pos rfl, hown]

/-- A run renames what is in a roster already, and keeps it otherwise. -/
theorem exists_renaming : ∀ {vs : List CompilationUnit} {t t' : Roster},
    (∀ v ∈ vs, Text.isDotted v.decl.name = false) → t.run? vs = some t' →
      ∃ φ, Renaming t vs φ ∧ ∀ e ∈ t, e.mapNames φ ∈ t'
  | [], t, t', _, h => by
    obtain rfl := Option.some.inj h
    refine ⟨id, ⟨fun _ _ => rfl, fun _ => .inl rfl, nofun⟩, fun e he => ?_⟩
    simpa [Enrolled.mapNames] using he
  | u :: vs, t, t', hsimple, h => by
    obtain ⟨hu, hvs⟩ := List.forall_mem_cons.mp hsimple
    obtain ⟨t₂, hd, hrun⟩ := Option.bind_eq_some_iff.mp h
    obtain ⟨-, -, t₁, ps, hf, -, rfl⟩ := declare?_eq_some hd
    obtain ⟨φ, hr, hall⟩ := exists_renaming hvs hrun
    rcases fold?_eq_some.mp hf with ⟨hno, rfl⟩ | ⟨hyes, rfl, -⟩
    · exact ⟨φ, hr.cons_of_not_foldsInto hno, fun e he => hall e (List.mem_append_left _ he)⟩
    · refine ⟨_, hr.cons_of_foldsInto hu hyes, fun e he => ?_⟩
      have := hall _ (List.mem_append_left _ (List.mem_map_of_mem he))
      simpa [Enrolled.mapNames, Enrolled.rename, Function.comp_def] using this

/-! ### Looking up -/

theorem Linked.resolves {acc names ps : List (Relation × String)} (h : t.Linked u acc names ps)
    {p q : Relation × String} (hpq : (p, q) ∈ names.zip ps) :
    ∃ acc', u.Resolves (knows (t ++ [⟨u, acc'⟩])) p.2 q.2 ∧ ∀ p' ∈ acc', p'.2 ≠ q.2 := by
  induction h with
  | nil => cases hpq
  | @cons acc names ps r n x hx hnew _ ih =>
    rcases List.mem_cons.mp hpq with heq | hpq
    · obtain ⟨rfl, rfl⟩ := Prod.mk.inj heq
      exact ⟨acc, hx, hnew⟩
    · exact ih hpq

/-- What a simple name leads to, for a unit that is neither its own parent nor
has one parent twice. -/
inductive Finds (t : Roster) (u : CompilationUnit) (n : String) : String → Prop
  | known (hk : t.knows n = true) : Finds t u n n
  | imported {q : String} (hk : t.knows n = false) (hi : u.importedName? n = some q) : Finds t u n q
  | seen {x : String} (hk : t.knows n = false) (hi : u.importedName? n = none)
    (hx : t.knows x = true) : Finds t u n x
  | placeholder (hk : t.knows n = false) (hi : u.importedName? n = none)
    (hself : u.decl.name ≠ n) : Finds t u n n

theorem Finds.eq_self (h : t.Finds u n x) (hn : t.knows n = true) : x = n := by
  cases h with
  | known => rfl
  | placeholder => rfl
  | imported hk => cases hk.symm.trans hn
  | seen hk => cases hk.symm.trans hn

theorem finds_of_resolves {acc : List (Relation × String)} (hd : Text.isDotted n = false)
    (hself : x ≠ u.qualifiedName) (hnew : ∀ p ∈ acc, p.2 ≠ x)
    (h : u.Resolves (knows (t ++ [⟨u, acc⟩])) n x) : t.Finds u n x := by
  have hbefore : knows (t ++ [⟨u, acc⟩]) x = true → t.knows x = true := by
    intro hk
    rcases knows_append.mp hk with hk | hk | ⟨p, hp, hx⟩
    · exact hk
    · exact absurd hk.symm hself
    · exact absurd hx (hnew p hp)
  have hless : ∀ {y}, knows (t ++ [⟨u, acc⟩]) y = false → t.knows y = false := by
    intro y hy
    rw [Bool.eq_false_iff] at hy ⊢
    exact fun hk => hy (knows_append.mpr (.inl hk))
  cases h with
  | known hk => exact .known (hbefore hk)
  | dotted hd' => cases hd.symm.trans hd'
  | imported hk _ hi => exact .imported (hless hk) hi
  | onDemand hk _ hi _ _ hq => exact .seen (hless hk) hi (hbefore hq)
  | package hk _ hi hq => exact .seen (hless hk) hi (hbefore hq)
  | placeholder hk _ hi _ hp =>
    refine .placeholder (hless hk) hi ?_
    rintro rfl
    have : knows (t ++ [⟨u, acc⟩]) u.qualifiedName = true := knows_append.mpr (.inr (.inl rfl))
    cases hp.symm.trans this

end Roster

/-! ### Orders of one program -/

/-- A program that has no placeholders and no unit that is its own parent, and
that ends in the same entries in every order. -/
structure Stable (us : List CompilationUnit) (t : Roster) : Prop where
  simple : ∀ u ∈ us, Text.isDotted u.decl.name = false
  enrolled : Roster.run? [] us = some t
  closed : t.Closed
  noSelf : ∀ e ∈ t, e.names e.unit.qualifiedName = false
  runs : ∀ us', us'.Perm us → ∃ t', Roster.run? [] us' = some t' ∧ ∀ e ∈ t', e ∈ t

/-- The parent that a unit calls `n` is `x` in the end. -/
def Ends (t : Roster) (u : CompilationUnit) (n x : String) : Prop :=
  ∃ e ∈ t, e.unit = u ∧ e.Leads n x

theorem Ends.uses {t : Roster} {u : CompilationUnit} {n x : String} (h : Ends t u n x) : u.Uses n := by
  obtain ⟨e, -, rfl, hx⟩ := h
  exact hx.uses

theorem exists_perm_cons {α : Type} {a : α} {l : List α} (h : a ∈ l) : ∃ r, (a :: r).Perm l := by
  obtain ⟨s, r, rfl⟩ := List.append_of_mem h
  exact ⟨s ++ r, List.perm_middle.symm⟩

theorem exists_perm_cons_cons {α : Type} {a b : α} {l : List α} (ha : a ∈ l) (hb : b ∈ l)
    (hne : a ≠ b) : ∃ r, (a :: b :: r).Perm l := by
  obtain ⟨r, hr⟩ := exists_perm_cons ha
  have hb' : b ∈ r := (List.mem_cons.mp (hr.mem_iff.mpr hb)).resolve_left hne.symm
  obtain ⟨r', hr'⟩ := exists_perm_cons hb'
  exact ⟨r', (hr'.cons a).trans hr⟩

namespace Stable

variable {us vs : List CompilationUnit} {t t₀ t' : Roster} {u v w : CompilationUnit}
  {n x x' : String} (S : Stable us t)
include S

theorem map_unit : t.map (·.unit) = us := Roster.units_of_run? S.enrolled

theorem declares_iff : t.declares x = true ↔ x ∈ us.map (·.qualifiedName) := by
  rw [Roster.declares_iff, ← S.map_unit, List.map_map, List.mem_map]
  rfl

theorem eq_of_qualifiedName (hu : u ∈ us) (hv : v ∈ us) (h : u.qualifiedName = v.qualifiedName) :
    u = v :=
  List.inj_on_of_nodup_map (S.map_unit ▸ Roster.distinct_run? S.enrolled) hu hv h

theorem entry_eq {e e' : Enrolled} (he : e ∈ t) (he' : e' ∈ t) (h : e.unit = e'.unit) : e = e' := by
  have hdistinct := Roster.distinct_run? S.enrolled
  rw [List.map_map] at hdistinct
  exact List.inj_on_of_nodup_map hdistinct he he' (congrArg (·.qualifiedName) h)

theorem not_uses_self (hu : u ∈ us) : ¬ u.Uses u.qualifiedName := by
  intro hn
  rw [← S.map_unit] at hu
  obtain ⟨e, he, rfl⟩ := List.mem_map.mp hu
  have := (Roster.faithful_run? S.simple S.enrolled e he).names_of_uses hn (.inr rfl)
  cases (S.noSelf e he).symm.trans this

theorem exists_ends (hu : u ∈ us) (hn : u.Uses n) : ∃ x, Ends t u n x := by
  rw [← S.map_unit] at hu
  obtain ⟨e, he, rfl⟩ := List.mem_map.mp hu
  obtain ⟨x, hx⟩ := (Roster.faithful_run? S.simple S.enrolled e he).exists_leads hn
  exact ⟨x, e, he, rfl, hx⟩

theorem ends_mem (h : Ends t u n x) : x ∈ us.map (·.qualifiedName) := by
  obtain ⟨e, he, -, hx⟩ := h
  exact S.declares_iff.mp (S.closed x (Roster.mentions_iff.mpr ⟨e, he, hx.names⟩))

theorem leads_of_ends {e : Enrolled} {φ : String → String} (he : e.mapNames φ ∈ t)
    (h : Ends t e.unit n x) : ∃ y, e.Leads n y ∧ x = φ y := by
  obtain ⟨e', he', hunit, hx⟩ := h
  obtain rfl := S.entry_eq he' he hunit
  exact Enrolled.leads_mapNames.mp hx

/-- What the rest of a run makes of a roster is in the end result. -/
theorem exists_renaming (hrun : t₀.run? vs = some t') (hvs : ∀ v ∈ vs, v ∈ us) (hsub : ∀ e ∈ t', e ∈ t) :
    ∃ φ, Roster.Renaming t₀ vs φ ∧ ∀ e ∈ t₀, e.mapNames φ ∈ t := by
  obtain ⟨φ, hr, hall⟩ := Roster.exists_renaming (fun v hv => S.simple v (hvs v hv)) hrun
  exact ⟨φ, hr, fun e he => hsub _ (hall e he)⟩

/-- One unit of a run: after the fold it looks its parents up among the names
that are known by then. -/
theorem enter (hrun : t₀.run? (u :: vs) = some t') (hvs : ∀ v ∈ vs, v ∈ us) (hsub : ∀ e ∈ t', e ∈ t) :
    ∃ t₁ ps, t₀.fold? u = some t₁ ∧ Roster.run? (t₁ ++ [⟨u, ps⟩]) vs = some t' ∧
      ∀ n x, Text.isDotted n = false → Enrolled.Leads ⟨u, ps⟩ n x → t₁.Finds u n x := by
  obtain ⟨t₂, hd, hrest⟩ := Option.bind_eq_some_iff.mp hrun
  obtain ⟨-, -, t₁, ps, hf, hl, rfl⟩ := Roster.declare?_eq_some hd
  refine ⟨t₁, ps, hf, hrest, ?_⟩
  rintro - - hn ⟨p, q, hpq, rfl, rfl⟩
  obtain ⟨acc, hx, hnew⟩ := hl.resolves hpq
  refine Roster.finds_of_resolves hn (fun hself => ?_) hnew hx
  -- the unit's own name is declared and therefore kept
  obtain ⟨φ, hr, hall⟩ := S.exists_renaming hrest hvs hsub
  have hlast : (⟨u, ps⟩ : Enrolled) ∈ t₁ ++ [⟨u, ps⟩] := List.mem_append_right _ (List.mem_singleton_self _)
  have hkept := hr.kept u.qualifiedName (.inr (Roster.declares_iff.mpr ⟨_, hlast, rfl⟩))
  have hleads : Enrolled.Leads ⟨u, ps⟩ p.2 u.qualifiedName := ⟨p, q, hpq, rfl, hself⟩
  have hnames := (Enrolled.leads_mapNames.mpr ⟨_, hleads, hkept.symm⟩).names
  cases (S.noSelf _ (hall _ hlast)).symm.trans hnames

/-! ### The first unit -/

/-- The unit that comes first finds no names but those it imports. -/
theorem first (hperm : (u :: vs).Perm us) :
    ∃ ps t', Roster.run? [⟨u, ps⟩] vs = some t' ∧ (∀ e ∈ t', e ∈ t) ∧
      ∀ n x, Text.isDotted n = false → Enrolled.Leads ⟨u, ps⟩ n x →
        u.importedName? n = some x ∨ (u.importedName? n = none ∧ x = n ∧ u.decl.name ≠ n) := by
  obtain ⟨t', hrun, hsub⟩ := S.runs _ hperm
  have hvs : ∀ v ∈ vs, v ∈ us := fun v hv => hperm.mem_iff.mp (List.mem_cons_of_mem _ hv)
  obtain ⟨t₁, ps, hf, hrest, hfinds⟩ := S.enter hrun hvs hsub
  obtain rfl : [] = t₁ := by
    have := Roster.map_unit_fold? hf
    rw [List.map_nil, List.map_eq_nil_iff] at this
    exact this.symm
  refine ⟨ps, t', hrest, hsub, fun n x hd hx => ?_⟩
  cases hfinds n x hd hx with
  | known hk => cases hk
  | imported _ hi => exact .inl hi
  | seen _ _ hk => cases hk
  | placeholder _ hi hself => exact .inr ⟨hi, rfl, hself⟩

/-- What the first unit has found is renamed by those that follow. -/
theorem first_ends (hperm : (u :: vs).Perm us) (hd : Text.isDotted n = false) (h : Ends t u n x) :
    ∃ ps φ y, Roster.Renaming [⟨u, ps⟩] vs φ ∧ Enrolled.Leads ⟨u, ps⟩ n y ∧ x = φ y ∧
      (u.importedName? n = some y ∨ (u.importedName? n = none ∧ y = n ∧ u.decl.name ≠ n)) := by
  obtain ⟨ps, t', hrun, hsub, hfirst⟩ := S.first hperm
  obtain ⟨φ, hr, hall⟩ := S.exists_renaming hrun
    (fun v hv => hperm.mem_iff.mp (List.mem_cons_of_mem _ hv)) hsub
  obtain ⟨y, hy, hx⟩ := S.leads_of_ends (hall _ (List.mem_singleton_self _)) h
  exact ⟨ps, φ, y, hr, hy, hx, hfirst n y hd hy⟩

theorem eq_of_importedName? {q : String} (hu : u ∈ us) (hd : Text.isDotted n = false)
    (hi : u.importedName? n = some q) (hq : Text.isDotted q = true) (h : Ends t u n x) : x = q := by
  obtain ⟨vs, hperm⟩ := exists_perm_cons hu
  obtain ⟨ps, φ, y, hr, -, rfl, hi' | ⟨hi', -⟩⟩ := S.first_ends hperm hd h
  · obtain rfl := Option.some.inj (hi.symm.trans hi')
    exact hr.kept q (.inl hq)
  · cases hi.symm.trans hi'

theorem name_ne (hu : u ∈ us) (hd : Text.isDotted n = false) (hi : u.importedName? n = none)
    (h : Ends t u n x) : u.decl.name ≠ n := by
  obtain ⟨vs, hperm⟩ := exists_perm_cons hu
  obtain ⟨_, _, _, -, -, -, hi' | ⟨-, -, hne⟩⟩ := S.first_ends hperm hd h
  · cases hi.symm.trans hi'
  · exact hne

section plain
variable (hd : Text.isDotted n = false) (hplain : ∀ q, u.importedName? n = some q → q = n)
include hd hplain

/-- Unless an import says otherwise, the unit that comes first makes a
placeholder. -/
theorem first_plain (hperm : (u :: vs).Perm us) (h : Ends t u n x) :
    ∃ ps φ, Roster.Renaming [⟨u, ps⟩] vs φ ∧ Enrolled.Leads ⟨u, ps⟩ n n ∧ x = φ n := by
  obtain ⟨ps, φ, y, hr, hy, hx, hi | ⟨-, rfl, -⟩⟩ := S.first_ends hperm hd h
  · obtain rfl := hplain y hi
    exact ⟨ps, φ, hr, hy, hx⟩
  · exact ⟨ps, φ, hr, hy, hx⟩

theorem sees_of_ends (hu : u ∈ us) (h : Ends t u n x) :
    x = n ∨ ∃ v ∈ us, v.decl.name = n ∧ x = v.qualifiedName ∧ u.sees v = true := by
  obtain ⟨vs, hperm⟩ := exists_perm_cons hu
  obtain ⟨ps, φ, hr, hy, rfl⟩ := S.first_plain hd hplain hperm h
  refine (hr.folded n).imp_right ?_
  rintro ⟨v, hv, hname, hφ, hsees⟩
  exact ⟨v, hperm.mem_iff.mp (List.mem_cons_of_mem _ hv), hname, hφ,
    hsees _ (List.mem_singleton_self _) hy.names⟩

/-- The unit that comes second folds what the first sees of it. -/
theorem eq_of_sees (hu : u ∈ us) (hv : v ∈ us) (hne : u ≠ v) (hname : v.decl.name = n)
    (hpackage : v.qualifiedName ≠ n) (hsees : u.sees v = true) (h : Ends t u n x) :
    x = v.qualifiedName := by
  obtain ⟨vs, hperm⟩ := exists_perm_cons_cons hu hv hne
  obtain ⟨ps, φ, hr, hy, rfl⟩ := S.first_plain hd hplain hperm h
  subst hname
  refine hr.next v rfl (Roster.foldsInto_iff.mpr ⟨hpackage, ?_, ?_, ?_⟩)
  · rw [Bool.eq_false_iff]
    intro hdecl
    obtain ⟨e, he, hown⟩ := Roster.declares_iff.mp hdecl
    rw [List.mem_singleton.mp he] at hown
    exact S.not_uses_self hu (hown ▸ h.uses)
  · exact Roster.mentions_iff.mpr ⟨_, List.mem_singleton_self _, hy.names⟩
  · intro e he _
    rwa [List.mem_singleton.mp he]

/-- The unit that comes second folds the placeholder of the first, or shares it. -/
theorem eq_or_eq (hu : u ∈ us) (hv : v ∈ us) (hne : u ≠ v) (h : Ends t u n x) (h' : Ends t v n x') :
    x = v.qualifiedName ∨ x' = x := by
  obtain ⟨vs, hperm⟩ := exists_perm_cons_cons hu hv hne
  have hvs : ∀ w ∈ vs, w ∈ us :=
    fun w hw => hperm.mem_iff.mp (List.mem_cons_of_mem _ (List.mem_cons_of_mem _ hw))
  obtain ⟨ps, t', hrun, hsub, hfirst⟩ := S.first hperm
  have hfirst : ∀ x, Enrolled.Leads ⟨u, ps⟩ n x → x = n := by
    intro x hx
    rcases hfirst n x hd hx with hi | ⟨-, hx, -⟩
    · exact hplain x hi
    · exact hx
  obtain ⟨t₁, ps', hf, hrest, hfinds⟩ := S.enter hrun hvs hsub
  by_cases hfold : Roster.foldsInto [⟨u, ps⟩] v = true ∧ v.decl.name = n
  · obtain ⟨hfold, hname⟩ := hfold
    obtain ⟨hpackage, -, hm, hsees⟩ := Roster.foldsInto_iff.mp hfold
    obtain ⟨e, he, hx⟩ := Roster.mentions_iff.mp hm
    obtain rfl := List.mem_singleton.mp he
    exact .inl (S.eq_of_sees hd hplain hu hv hne hname (hname ▸ hpackage) (hsees _ he hx) h)
  · refine .inr ?_
    -- the placeholder outlives the fold of the second unit
    obtain ⟨e, he, rfl, hkept⟩ : ∃ e ∈ t₁, e.unit = u ∧ ∀ x, e.Leads n x → x = n := by
      rcases Roster.fold?_eq_some.mp hf with ⟨-, rfl⟩ | ⟨hyes, rfl, -⟩
      · exact ⟨_, List.mem_singleton_self _, rfl, hfirst⟩
      · refine ⟨_, List.mem_singleton_self _, rfl, fun x hx => ?_⟩
        rw [Enrolled.rename_eq, Enrolled.leads_mapNames] at hx
        obtain ⟨y, hy, rfl⟩ := hx
        rw [hfirst y hy, if_neg]
        exact fun hname => hfold ⟨hyes, hname.symm⟩
    obtain ⟨φ, -, hall⟩ := S.exists_renaming hrest hvs hsub
    obtain ⟨y, hy, rfl⟩ := S.leads_of_ends (hall e (List.mem_append_left _ he)) h
    obtain ⟨y', hy', rfl⟩ := S.leads_of_ends
      (hall _ (List.mem_append_right _ (List.mem_singleton_self _))) h'
    obtain rfl := hkept y hy
    have hknows : t₁.knows y = true :=
      Roster.knows_iff.mpr (.inr (Roster.mentions_iff.mpr ⟨e, he, hy.names⟩))
    rw [(hfinds _ _ hd hy').eq_self hknows]

end plain

/-! ### Units that come later -/

/-- A type of the unnamed package that comes first is found under its name. -/
theorem eq_of_unnamed (hu : u ∈ us) (hd : Text.isDotted n = false)
    (hn : n ∈ us.map (·.qualifiedName)) (h : Ends t u n x) : x = n := by
  obtain ⟨w, hw, rfl⟩ := List.mem_map.mp hn
  have hne : w ≠ u := by
    rintro rfl
    exact S.not_uses_self hu h.uses
  obtain ⟨vs, hperm⟩ := exists_perm_cons_cons hw hu hne
  have hvs : ∀ v ∈ vs, v ∈ us :=
    fun v hv => hperm.mem_iff.mp (List.mem_cons_of_mem _ (List.mem_cons_of_mem _ hv))
  obtain ⟨ps, t', hrun, hsub, -⟩ := S.first hperm
  obtain ⟨t₁, ps', hf, hrest, hfinds⟩ := S.enter hrun hvs hsub
  have hdecl : t₁.declares w.qualifiedName = true := by
    rw [Roster.declares_eq, Roster.map_unit_fold? hf]
    simp
  obtain ⟨φ, hr, hall⟩ := S.exists_renaming hrest hvs hsub
  obtain ⟨y, hy, rfl⟩ := S.leads_of_ends
    (hall _ (List.mem_append_right _ (List.mem_singleton_self _))) h
  rw [(hfinds _ _ hd hy).eq_self (Roster.knows_iff.mpr (.inl hdecl))]
  refine hr.kept _ (.inr ?_)
  obtain ⟨e, he, hname⟩ := Roster.declares_iff.mp hdecl
  exact Roster.declares_iff.mpr ⟨e, List.mem_append_left _ he, hname⟩

/-- A unit that comes last and imports a type of the unnamed package has that
type as its parent. -/
theorem eq_of_last (hu : u ∈ us) (hd : Text.isDotted n = false) (hi : u.importedName? n = some n)
    (h : Ends t u n x) : x = n := by
  obtain ⟨before, after, rfl⟩ := List.append_of_mem hu
  have hperm : ((before ++ after) ++ [u]).Perm (before ++ u :: after) := by
    rw [List.append_assoc]
    exact (List.perm_append_comm).append_left before
  obtain ⟨t', hrun, hsub⟩ := S.runs _ hperm
  rw [Roster.run?_append] at hrun
  obtain ⟨t₀, -, hrun⟩ := Option.bind_eq_some_iff.mp hrun
  obtain ⟨t₁, ps, -, hrest, hfinds⟩ := S.enter hrun nofun hsub
  obtain ⟨φ, hr, hall⟩ := S.exists_renaming hrest nofun hsub
  obtain ⟨y, hy, rfl⟩ := S.leads_of_ends
    (hall _ (List.mem_append_right _ (List.mem_singleton_self _))) h
  have hkept : φ y = y := (hr.folded y).resolve_right nofun
  rw [hkept]
  cases hfinds n y hd hy with
  | known => rfl
  | imported _ hi' => exact (Option.some.inj (hi.symm.trans hi')).symm
  | seen _ hi' => cases hi.symm.trans hi'
  | placeholder => rfl

/-! ### The conditions -/

/-- An import that gives a simple name a meaning leads to a declared type. -/
theorem imported_mem {q : String} (hu : u ∈ us) (hn : u.Uses n) (hd : Text.isDotted n = false)
    (hi : u.importedName? n = some q) : q ∈ us.map (·.qualifiedName) := by
  obtain ⟨x, hx⟩ := S.exists_ends hu hn
  rcases hq : Text.isDotted q
  · obtain rfl := CompilationUnit.eq_of_importedName? hi hq
    exact S.eq_of_last hu hd hi hx ▸ S.ends_mem hx
  · exact S.eq_of_importedName? hu hd hi hq hx ▸ S.ends_mem hx

theorem unnamed_of_sees (hu : u ∈ us) (hn : u.Uses n) (hd : Text.isDotted n = false)
    (hi : u.importedName? n = some n) (hv : v ∈ us) (hname : v.decl.name = n) (hsees : u.sees v = true) :
    v.qualifiedName = n ∨ v.qualifiedName = u.qualifiedName := by
  obtain ⟨x, hx⟩ := S.exists_ends hu hn
  by_contra hno
  obtain ⟨hpackage, hne⟩ := not_or.mp hno
  have hplain : ∀ q, u.importedName? n = some q → q = n :=
    fun q hq => (Option.some.inj (hi.symm.trans hq)).symm
  have hfold := S.eq_of_sees hd hplain hu hv (fun h => hne (h ▸ rfl)) hname hpackage hsees hx
  exact hpackage (hfold.symm.trans (S.eq_of_last hu hd hi hx))

/-- A simple name that a type has is settled. -/
theorem settled_of_mem (hw : w ∈ us) (hn : w.qualifiedName = n) (hd : Text.isDotted n = false) :
    Settled us n w := by
  have hmem : n ∈ us.map (·.qualifiedName) := hn ▸ List.mem_map_of_mem hw
  refine ⟨?_, fun _ => hn, fun u hu huses hi v hv hname => ?_, fun u hu huses q hi => ?_⟩
  · exact (CompilationUnit.name_of_qualifiedName (hn ▸ hd)).symm.trans hn
  · obtain ⟨x, hx⟩ := S.exists_ends hu huses
    have hplain : ∀ q, u.importedName? n = some q → q = n := fun q hq => by cases hi.symm.trans hq
    rw [hn]
    refine ⟨fun hmay => ?_, fun h => .inr (h.trans hname.symm)⟩
    rcases hmay with hsees | hunnamed
    · -- a type that the unit sees would be found where it comes second
      by_contra hpackage
      have hne : u ≠ v := by
        rintro rfl
        exact S.name_ne hu hd hi hx hname
      have hfold := S.eq_of_sees hd hplain hu hv hne hname hpackage hsees hx
      exact hpackage (hfold.symm.trans (S.eq_of_unnamed hu hd hmem hx))
    · exact hunnamed.trans hname
  · obtain ⟨x, hx⟩ := S.exists_ends hu huses
    have hxn := S.eq_of_unnamed hu hd hmem hx
    refine .inl ?_
    rw [hn]
    rcases hq : Text.isDotted q
    · exact CompilationUnit.eq_of_importedName? hi hq
    · exact (S.eq_of_importedName? hu hd hi hq hx).symm.trans hxn

/-- A simple name that no type has is settled by a unit without an import of it. -/
theorem exists_settled_of_not_mem (hu : u ∈ us) (huses : u.Uses n) (hd : Text.isDotted n = false)
    (hi : u.importedName? n = none) (hn : n ∉ us.map (·.qualifiedName)) : ∃ w ∈ us, Settled us n w := by
  have hplain : ∀ {v : CompilationUnit}, v.importedName? n = none →
      ∀ q, v.importedName? n = some q → q = n := fun hi q hq => by cases hi.symm.trans hq
  have hpackage : ∀ {v : CompilationUnit}, v ∈ us → v.qualifiedName ≠ n :=
    fun hv h => hn (h ▸ List.mem_map_of_mem hv)
  obtain ⟨x, hx⟩ := S.exists_ends hu huses
  rcases S.sees_of_ends hd (hplain hi) hu hx with rfl | ⟨w, hw, hname, rfl, hsees⟩
  · exact absurd (S.ends_mem hx) hn
  have hfixed : ∀ {y}, Ends t u n y → y = w.qualifiedName := by
    have hne : u ≠ w := by
      rintro rfl
      exact S.name_ne hu hd hi hx hname
    intro y hy
    exact S.eq_of_sees hd (hplain hi) hu hw hne hname (hpackage hw) hsees hy
  refine ⟨w, hw, hname, fun h => absurd h hn, fun v hv hvuses hvi => ?_, fun v hv hvuses q hvi => ?_⟩
  · obtain ⟨y, hy⟩ := S.exists_ends hv hvuses
    have hvn := S.name_ne hv hd hvi hy
    obtain rfl : y = w.qualifiedName := by
      by_cases heq : u = v
      · subst heq
        exact hfixed hy
      rcases S.eq_or_eq hd (hplain hi) hu hv heq hx hy with hown | hsame
      · -- the name would be that of the unit itself
        exact absurd (S.eq_of_qualifiedName hw hv hown ▸ hname) hvn
      · exact hsame
    intro v' hv' hname'
    constructor
    · rintro (hsees' | hunnamed)
      · have hne : v ≠ v' := by
          rintro rfl
          exact hvn hname'
        exact (S.eq_of_sees hd (hplain hvi) hv hv' hne hname' (hpackage hv') hsees' hy).symm
      · exact absurd (hunnamed.trans hname') (hpackage hv')
    · intro hsame
      obtain rfl := S.eq_of_qualifiedName hv' hw hsame
      rcases S.sees_of_ends hd (hplain hvi) hv hy with h | ⟨z, hz, -, hzn, hzsees⟩
      · exact absurd h (hpackage hw)
      · exact .inl (S.eq_of_qualifiedName hw hz hzn ▸ hzsees)
  · obtain ⟨y, hy⟩ := S.exists_ends hv hvuses
    have hq : Text.isDotted q = true := by
      rcases hq : Text.isDotted q
      · obtain rfl := CompilationUnit.eq_of_importedName? hvi hq
        exact absurd (S.imported_mem hv hvuses hd hvi) hn
      · rfl
    obtain rfl := S.eq_of_importedName? hv hd hvi hq hy
    have hne : u ≠ v := by
      rintro rfl
      cases hi.symm.trans hvi
    exact (S.eq_or_eq hd (hplain hi) hu hv hne hx hy).symm.imp_right Eq.symm

/-- A program that ends in the same entries in every order does not depend on
the order. -/
theorem orderFree : OrderFree us := by
  refine fun u hu n hn hd => ⟨fun q hi => S.imported_mem hu hn hd hi,
    fun hi v hv hname hsees => S.unnamed_of_sees hu hn hd hi hv hname hsees, fun hor => ?_⟩
  by_cases hmem : n ∈ us.map (·.qualifiedName)
  · obtain ⟨w, hw, hname⟩ := List.mem_map.mp hmem
    exact ⟨w, hw, S.settled_of_mem hw hname hd⟩
  · exact S.exists_settled_of_not_mem hu hn hd (hor.resolve_right hmem) hmem

end Stable

/-! ### Checking in any order -/

/-- A program that passes a check has been run. -/
theorem exists_run_of_check {us : List CompilationUnit} {g : Graph} (h : check us false = .ok g) :
    ∃ t, Roster.run? [] us = some t ∧ g.Agrees t ∧ g.Represents us ∧ g.Lawful false := by
  obtain ⟨hdecl, hverify, -⟩ := check_eq_ok.mp h
  have hr := Graph.declareAll_represents hdecl
  obtain ⟨t, hrun, hagrees⟩ := Graph.exists_run_of_declareAll hdecl
  exact ⟨t, hrun, hagrees, hr, hr.verify_eq_ok.mp hverify⟩

/-- A program that passes the check passes it in every order, with a graph that
is equal by name, exactly if no simple name of a parent depends on the order.
The identifiers of types have no dots, as in the grammar. -/
theorem check_perm_iff_orderFree (us : List CompilationUnit) (g : Graph) (h : check us false = .ok g)
    (hsimple : ∀ u ∈ us, Text.isDotted u.decl.name = false) :
    (∀ us', us'.Perm us → ∃ g', check us' false = .ok g' ∧ g.SameByName g') ↔ OrderFree us := by
  obtain ⟨t, hrun, hagrees, hr, hlawful⟩ := exists_run_of_check h
  have hclosed := hagrees.closed (hlawful.resolved.resolve_left Bool.false_ne_true)
  have hself := hagrees.not_names_self hlawful.acyclic
  constructor
  · intro hall
    refine Stable.orderFree (t := t) ⟨hsimple, hrun, hclosed, hself, fun us' hperm => ?_⟩
    obtain ⟨g', hcheck', hsame⟩ := hall us' hperm
    obtain ⟨t', hrun', hagrees', -⟩ := exists_run_of_check hcheck'
    refine ⟨t', hrun', hagrees.mem_of_sameByName hagrees' hsame ?_ ?_ ?_⟩
    · exact Roster.faithful_run? hsimple hrun
    · exact Roster.faithful_run? (fun u hu => hsimple u (hperm.mem_iff.mp hu)) hrun'
    · rwa [Roster.units_of_run? hrun, Roster.units_of_run? hrun']
  · intro hfree us' hperm
    obtain ⟨t', hrun', ht'⟩ := hfree.run?_perm hsimple hrun hclosed hself hperm
    rcases Graph.agrees_empty.declareAll us' with ⟨hnone, -⟩ | ⟨t'', g', hrun'', hdecl', hagrees'⟩
    · cases hrun'.symm.trans hnone
    obtain rfl := Option.some.inj (hrun'.symm.trans hrun'')
    have hr' := Graph.declareAll_represents hdecl'
    have hsame := hagrees.sameByName hagrees' hr hr' ht' hperm hclosed
    have hverify := hr'.verify_eq_ok.mpr (hsame.lawful hagrees.sound hagrees'.sound hlawful)
    have hrefs := (checkSelfReferences_perm hperm).mpr (check_eq_ok.mp h).2.2
    exact ⟨g', check_eq_ok.mpr ⟨hdecl', hverify, hrefs⟩, hsame⟩

/-- A class that its package and an import name, beside another of the same
simple name that nobody sees. -/
def importingUnits : List CompilationUnit :=
  [.plainClass "p" "A" (some "B"), (CompilationUnit.plainClass "q" "C" (some "B")).withImport "p.B",
    .plainClass "p" "B" none, .plainClass "s" "B" none]

theorem importingUnits_check_perm : ∃ g, check importingUnits false = .ok g ∧
    ∀ us', us'.Perm importingUnits → ∃ g', check us' false = .ok g' ∧ g.SameByName g' :=
  ⟨_, rfl, (check_perm_iff_orderFree importingUnits _ rfl (by decide)).mpr (by decide)⟩

/-- Two classes of one simple name, and two that mean different ones by it. -/
def ambiguousUnits : List CompilationUnit :=
  [.plainClass "p" "B" none, .plainClass "s" "B" none, .plainClass "p" "A" (some "B"),
    (CompilationUnit.plainClass "r" "C" (some "B")).withImportOnDemand "s"]

/-- If the classes that mean different ones come first they share a placeholder,
which neither of the later classes can be folded into. -/
theorem ambiguousUnits_rejected : ∃ us', us'.Perm ambiguousUnits ∧
    (∃ g, check ambiguousUnits false = .ok g) ∧
    check us' false = .error (.hierarchy (.unresolvedType "B" "p.A")) :=
  ⟨ambiguousUnits.drop 2 ++ ambiguousUnits.take 2, List.perm_append_comm, ⟨_, rfl⟩, rfl⟩

end ClassCompiler
