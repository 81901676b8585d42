import ClassCompiler.Proofs.Hierarchy.Declared
import ClassCompiler.Proofs.Hierarchy.Search

/-!
# Inherited methods

The pass over the methods goes up from each type to those it extends and
remembers, for every type it has verified, the methods that are seen there: the
inherited ones and its own. It has no guard against cycles, and needs none: it
runs on graphs in which no type is its own ancestor, so that its path holds no
type twice.

What it remembers at a type are the methods of all types that can be reached
over the extended ones. Where two ways lead up to one method it is kept once,
by its owner and signature; no other method has both, because types have
different names and the signatures of a verified type are distinct.

Key definitions: `Graph.MethodsLawful`, `Graph.Verifies`, `Graph.GoodSeen`.

Key theorems: `Graph.verifies_checkMethodsOf`, `Graph.checkMethods_eq_ok`,
`Graph.verify_ok_iff_lawful`.
-/

namespace ClassCompiler
namespace Graph

variable {g : Graph} {seen : Seen}

/-- The rules for the methods of one type. -/
def MethodsLawful (g : Graph) (c : Nat) : Prop :=
  (g.node c).OwnMethodsLawful ∧ g.ReplacesLawfully c

/-- The checks of a type once the types it extends have been verified. -/
def checkMethodsAt (g : Graph) (seen : Seen) (id : TypeId) : Except Violation Unit := do
  checkOwnMethods (g.node id) [] (g.node id).methods
  checkEach (fun o => checkEach (checkReplacement (g.node id) o) (g.node id).methods)
    (inheritedMethods seen (g.node id).extended)

/-- What is remembered of a type. -/
def see (g : Graph) (seen : Seen) (id : TypeId) : Seen :=
  (id, inheritedMethods seen (g.node id).extended ++ (g.node id).methods) :: seen

/-- The pass over some types, given what has been seen. -/
inductive Verifies (g : Graph) : Seen → List TypeId → Except Violation Seen → Prop
  | done {seen : Seen} : Verifies g seen [] (.ok seen)
  | again {seen : Seen} {id : TypeId} {ids : List TypeId} {r : Except Violation Seen}
    (hs : (seen.lookup id).isSome = true) (rest : Verifies g seen ids r) :
    Verifies g seen (id :: ids) r
  | failedAbove {seen : Seen} {id : TypeId} {ids : List TypeId} {v : Violation}
    (hs : seen.lookup id = none) (above : Verifies g seen (g.node id).extended (.error v)) :
    Verifies g seen (id :: ids) (.error v)
  | failed {seen seen' : Seen} {id : TypeId} {ids : List TypeId} {v : Violation}
    (hs : seen.lookup id = none) (above : Verifies g seen (g.node id).extended (.ok seen'))
    (h : g.checkMethodsAt seen' id = .error v) : Verifies g seen (id :: ids) (.error v)
  | entered {seen seen' : Seen} {id : TypeId} {ids : List TypeId} {r : Except Violation Seen}
    (hs : seen.lookup id = none) (above : Verifies g seen (g.node id).extended (.ok seen'))
    (h : g.checkMethodsAt seen' id = .ok ()) (rest : Verifies g (g.see seen' id) ids r) :
    Verifies g seen (id :: ids) r

theorem checkMethodsOf_succ (depth : Nat) (id : TypeId) (hs : seen.lookup id = none) :
    g.checkMethodsOf (depth + 1) seen id =
      (g.node id).extended.foldlM (fun seen p => g.checkMethodsOf depth seen p) seen >>= fun seen =>
        g.checkMethodsAt seen id >>= fun _ => .ok (g.see seen id) := by
  rw [checkMethodsOf, hs]
  simp only [checkMethodsAt, bind_assoc]
  rfl

/-- On a graph without cycles the pass ends by itself. -/
theorem verifies_checkMethodsOf (hg : g.Sound)
    (hacyclic : ∀ c ∈ g.ids, ¬ Relation.TransGen g.Parent c c) :
    ∀ (depth : Nat) (path : List Nat) (seen : Seen) (ids : List Nat),
      path.Nodup → (∀ id ∈ path, id ∈ g.ids) → (∀ id ∈ ids, id ∈ g.ids) →
      (∀ p ∈ path, ∀ id ∈ ids, Relation.TransGen g.Extends p id) →
      g.nodes.length < depth + path.length →
      g.Verifies seen ids (ids.foldlM (fun seen id => g.checkMethodsOf depth seen id) seen)
  | 0, path, _, _, hd, hp, _, _, hlt => by
    have := length_path_le hd hp
    omega
  | _ + 1, _, _, [], _, _, _, _, _ => .done
  | depth + 1, path, seen, id :: ids, hd, hp, hids, hup, hlt => by
    obtain ⟨hid, hids⟩ := List.forall_mem_cons.mp hids
    have rest := fun seen => verifies_checkMethodsOf hg hacyclic (depth + 1) path seen ids hd hp hids
      (fun p hp' c hc => hup p hp' c (List.mem_cons_of_mem _ hc)) hlt
    rw [List.foldlM_cons]
    rcases hs : seen.lookup id with _ | ms
    · -- the type is not on the path, which leads up to it
      have hpath : id ∉ path := by
        intro h
        refine hacyclic id hid (Relation.TransGen.mono ?_ id id (hup id h id List.mem_cons_self))
        exact fun c d hd => List.mem_append_left _ hd
      have above := verifies_checkMethodsOf hg hacyclic depth (id :: path) seen (g.node id).extended
        (List.nodup_cons.mpr ⟨hpath, hd⟩) (List.forall_mem_cons.mpr ⟨hid, hp⟩)
        (fun p hp => hg.parent_mem hid (List.mem_append_left _ hp))
        (List.forall_mem_cons.mpr ⟨fun d hd => .single hd,
          fun p hp' d hd => (hup p hp' id List.mem_cons_self).tail hd⟩)
        (by rw [List.length_cons]; omega)
      rw [checkMethodsOf_succ depth id hs]
      rcases hr : (g.node id).extended.foldlM (fun seen p => g.checkMethodsOf depth seen p) seen
        with v | seen'
      · exact .failedAbove hs (hr ▸ above)
      · rcases hc : g.checkMethodsAt seen' id with v | _
        · have : g.Verifies seen (id :: ids) (.error v) := .failed hs (hr ▸ above) hc
          simpa [bind, Except.bind, hc] using this
        · have := Verifies.entered hs (hr ▸ above) hc (rest _)
          simpa [bind, Except.bind, hc] using this
    · rw [checkMethodsOf, if_pos (by simp [hs])]
      exact .again (by simp [hs]) (rest seen)
termination_by depth _ _ ids => (depth, ids.length)

/-! ### What is seen at a type -/

/-- Methods that are kept once: nothing is lost where owner and signature
single a method out. -/
theorem mem_foldl_new {m : Method} : ∀ {l acc : List Method},
    (∀ a ∈ acc ++ l, ∀ b ∈ acc ++ l, a.owner = b.owner → a.signature = b.signature → a = b) →
    (m ∈ l.foldl (fun acc m =>
      if acc.any fun o => o.owner = m.owner && o.signature = m.signature then acc
      else acc ++ [m]) acc ↔ m ∈ acc ++ l)
  | [], acc, _ => by simp
  | a :: l, acc, h => by
    rw [List.foldl_cons]
    split
    · rename_i hany
      simp only [List.any_eq_true, Bool.and_eq_true, decide_eq_true_eq] at hany
      obtain ⟨o, ho, howner, hsig⟩ := hany
      obtain rfl := h o (List.mem_append_left _ ho) a (by simp) howner hsig
      rw [mem_foldl_new fun a ha b hb => h a (by grind) b (by grind)]
      grind
    · rw [mem_foldl_new fun a ha b hb => h a (by grind) b (by grind)]
      grind

/-- What the pass has seen is right. -/
structure GoodSeen (g : Graph) (seen : Seen) : Prop where
  mem : ∀ {id ms}, seen.lookup id = some ms → id ∈ g.ids
  closed : ∀ {id ms}, seen.lookup id = some ms → ∀ p, g.Extends id p → (seen.lookup p).isSome = true
  methods : ∀ {id ms}, seen.lookup id = some ms →
    ∀ m, m ∈ ms ↔ ∃ d, Relation.ReflTransGen g.Extends id d ∧ m ∈ (g.node d).methods
  lawful : ∀ {id ms}, seen.lookup id = some ms → g.MethodsLawful id

theorem GoodSeen.ancestor (h : g.GoodSeen seen) {id d : Nat} (hs : (seen.lookup id).isSome = true)
    (hd : Relation.ReflTransGen g.Extends id d) : (seen.lookup d).isSome = true := by
  induction hd with
  | refl => exact hs
  | tail _ hp ih =>
    obtain ⟨ms, hms⟩ := Option.isSome_iff_exists.mp ih
    exact h.closed hms _ hp

theorem lookup_see (id other : TypeId) :
    (g.see seen id).lookup other =
      if other = id then some (inheritedMethods seen (g.node id).extended ++ (g.node id).methods)
      else seen.lookup other := by
  rw [see, List.lookup_cons]
  by_cases h : other = id
  · simp [h]
  · have hne : (other == id) = false := by simpa using h
    simp [hne, h]

theorem isSome_lookup_see {id other : TypeId} :
    ((g.see seen id).lookup other).isSome = true ↔ other = id ∨ (seen.lookup other).isSome = true := by
  rw [lookup_see]
  by_cases h : other = id <;> simp [h]

section pass
variable (hg : g.Sound) (howner : ∀ d ∈ g.ids, ∀ m ∈ (g.node d).methods, m.owner = (g.node d).name)
include hg howner

/-- The methods that types inherit from verified ones. -/
theorem GoodSeen.mem_inherited (h : g.GoodSeen seen) {ps : List Nat}
    (hps : ∀ p ∈ ps, (seen.lookup p).isSome = true) {m : Method} :
    m ∈ inheritedMethods seen ps ↔
      ∃ p ∈ ps, ∃ d, Relation.ReflTransGen g.Extends p d ∧ m ∈ (g.node d).methods := by
  have hflat : ∀ {m}, m ∈ ps.flatMap (fun p => (seen.lookup p).getD []) ↔
      ∃ p ∈ ps, ∃ d, Relation.ReflTransGen g.Extends p d ∧ m ∈ (g.node d).methods := by
    intro m
    rw [List.mem_flatMap]
    refine exists_congr fun p => and_congr_right fun hp => ?_
    obtain ⟨ms, hms⟩ := Option.isSome_iff_exists.mp (hps p hp)
    rw [hms, Option.getD_some, h.methods hms]
  have hsingle : ∀ a ∈ ps.flatMap (fun p => (seen.lookup p).getD []),
      ∀ b ∈ ps.flatMap (fun p => (seen.lookup p).getD []),
      a.owner = b.owner → a.signature = b.signature → a = b := by
    intro a ha b hb hab hsig
    obtain ⟨p, hp, d, hpd, had⟩ := hflat.mp ha
    obtain ⟨q, hq, e, hqe, hbe⟩ := hflat.mp hb
    obtain ⟨ms, hms⟩ := Option.isSome_iff_exists.mp (h.ancestor (hps p hp) hpd)
    obtain ⟨ms', hms'⟩ := Option.isSome_iff_exists.mp (h.ancestor (hps q hq) hqe)
    rw [howner d (h.mem hms) a had, howner e (h.mem hms') b hbe] at hab
    obtain rfl := hg.name_inj (h.mem hms) (h.mem hms') hab
    exact List.inj_on_of_nodup_map (h.lawful hms).1.distinct had hbe hsig
  rw [inheritedMethods, mem_foldl_new (by simpa using hsingle), List.nil_append, hflat]

theorem GoodSeen.checkMethodsAt_eq_ok (h : g.GoodSeen seen) {id : Nat}
    (hps : ∀ p ∈ (g.node id).extended, (seen.lookup p).isSome = true) :
    g.checkMethodsAt seen id = .ok () ↔ g.MethodsLawful id := by
  rw [checkMethodsAt, seq_eq_ok, checkOwnMethods_eq_ok, MethodsLawful, checkEach_eq_ok]
  simp only [checkEach_eq_ok, checkReplacement_eq_ok, h.mem_inherited hg howner hps]
  refine and_congr_right fun _ => ?_
  constructor
  · intro hall d hd
    obtain ⟨p, hp, hpd⟩ := Relation.TransGen.head'_iff.mp hd
    exact fun o ho => hall o ⟨p, hp, d, hpd, ho⟩
  · rintro hall o ⟨p, hp, d, hpd, ho⟩
    exact hall d (.head' hp hpd) o ho

theorem GoodSeen.see (h : g.GoodSeen seen) {id : Nat} (hid : id ∈ g.ids)
    (hps : ∀ p ∈ (g.node id).extended, (seen.lookup p).isSome = true) (hl : g.MethodsLawful id) :
    g.GoodSeen (g.see seen id) := by
  have hcases : ∀ {other ms}, (g.see seen id).lookup other = some ms →
      (other = id ∧ ms = inheritedMethods seen (g.node id).extended ++ (g.node id).methods) ∨
        seen.lookup other = some ms := by
    intro other ms hms
    rw [lookup_see] at hms
    split at hms
    · exact .inl ⟨‹_›, (Option.some.inj hms).symm⟩
    · exact .inr hms
  refine ⟨?_, ?_, ?_, ?_⟩ <;> intro other ms hms <;> rcases hcases hms with ⟨rfl, rfl⟩ | hms
  · exact hid
  · exact h.mem hms
  · exact fun p hp => isSome_lookup_see.mpr (.inr (hps p hp))
  · exact fun p hp => isSome_lookup_see.mpr (.inr (h.closed hms p hp))
  · intro m
    rw [List.mem_append, h.mem_inherited hg howner hps]
    constructor
    · rintro (⟨p, hp, d, hpd, hm⟩ | hm)
      · exact ⟨d, .head hp hpd, hm⟩
      · exact ⟨other, .refl, hm⟩
    · rintro ⟨d, hd, hm⟩
      rcases Relation.ReflTransGen.cases_head hd with rfl | ⟨p, hp, hpd⟩
      · exact .inr hm
      · exact .inl ⟨p, hp, d, hpd, hm⟩
  · exact h.methods hms
  · exact hl
  · exact h.lawful hms

/-- What is seen after a pass that succeeds. -/
theorem Verifies.good {ids : List Nat} {seen' : Seen} (hv : g.Verifies seen ids (.ok seen'))
    (h : g.GoodSeen seen) (hids : ∀ id ∈ ids, id ∈ g.ids) :
    g.GoodSeen seen' ∧ (∀ id, (seen.lookup id).isSome = true → (seen'.lookup id).isSome = true) ∧
      ∀ id ∈ ids, (seen'.lookup id).isSome = true := by
  generalize hr : Except.ok seen' = r at hv
  induction hv generalizing seen' with
  | done =>
    cases hr
    exact ⟨h, fun _ h => h, nofun⟩
  | again hs _ ih =>
    obtain ⟨h₁, h₂, h₃⟩ := ih h (List.forall_mem_cons.mp hids).2 hr
    exact ⟨h₁, h₂, List.forall_mem_cons.mpr ⟨h₂ _ hs, h₃⟩⟩
  | failedAbove => cases hr
  | failed => cases hr
  | entered hs _ hc _ ihabove ih =>
    obtain ⟨hid, hids⟩ := List.forall_mem_cons.mp hids
    obtain ⟨h₁, h₂, h₃⟩ := ihabove h (fun p hp => hg.parent_mem hid (List.mem_append_left _ hp)) rfl
    have hl := (h₁.checkMethodsAt_eq_ok hg howner h₃).mp hc
    obtain ⟨h₄, h₅, h₆⟩ := ih (h₁.see hg howner hid h₃ hl) hids hr
    refine ⟨h₄, fun other ho => h₅ other (isSome_lookup_see.mpr (.inr (h₂ other ho))), ?_⟩
    exact List.forall_mem_cons.mpr ⟨h₅ _ (isSome_lookup_see.mpr (.inl rfl)), h₆⟩

/-- A pass fails at a type for which all that it extends has been seen. -/
theorem Verifies.exists_failed {ids : List Nat} {v : Violation}
    (hv : g.Verifies seen ids (.error v)) (h : g.GoodSeen seen) (hids : ∀ id ∈ ids, id ∈ g.ids) :
    ∃ id ∈ g.ids, ∃ seen', g.GoodSeen seen' ∧
      (∀ p ∈ (g.node id).extended, (seen'.lookup p).isSome = true) ∧
      g.checkMethodsAt seen' id = .error v := by
  generalize hr : Except.error v = r at hv
  induction hv with
  | done => cases hr
  | again _ _ ih => exact ih h (List.forall_mem_cons.mp hids).2 hr
  | failedAbove _ _ ih =>
    have hid := hids _ List.mem_cons_self
    exact ih h (fun p hp => hg.parent_mem hid (List.mem_append_left _ hp)) hr
  | @failed _ seen' id _ _ _ above hc _ =>
    have hid := hids _ List.mem_cons_self
    obtain ⟨h₁, -, h₃⟩ := above.good hg howner h fun p hp =>
      hg.parent_mem hid (List.mem_append_left _ hp)
    obtain rfl := Except.error.inj hr
    exact ⟨id, hid, seen', h₁, h₃, hc⟩
  | entered _ above hc _ _ ih =>
    obtain ⟨hid, hids⟩ := List.forall_mem_cons.mp hids
    obtain ⟨h₁, -, h₃⟩ := above.good hg howner h fun p hp =>
      hg.parent_mem hid (List.mem_append_left _ hp)
    have hl := (h₁.checkMethodsAt_eq_ok hg howner h₃).mp hc
    exact ih (h₁.see hg howner hid h₃ hl) hids hr

section acyclic
variable (hacyclic : ∀ c ∈ g.ids, ¬ Relation.TransGen g.Parent c c)
include hacyclic

/-- The type at which the whole pass fails. -/
theorem exists_of_checkMethods {v : Violation} (h : g.checkMethods = .error v) :
    ∃ id ∈ g.ids, ∃ seen, g.GoodSeen seen ∧
      (∀ p ∈ (g.node id).extended, (seen.lookup p).isSome = true) ∧
      g.checkMethodsAt seen id = .error v := by
  have hpass := verifies_checkMethodsOf hg hacyclic (g.nodes.length + 1) [] [] g.ids
    List.nodup_nil nofun (fun _ h => h) nofun (by simp)
  have hgood : g.GoodSeen [] := ⟨nofun, nofun, nofun, nofun⟩
  rw [checkMethods] at h
  rcases hr : g.ids.foldlM (fun seen id => g.checkMethodsOf (g.nodes.length + 1) seen id) []
    with v' | seen'
  · rw [hr] at h
    obtain rfl := Except.error.inj h
    exact (hr ▸ hpass).exists_failed hg howner hgood fun _ h => h
  · rw [hr] at h
    cases h

theorem checkMethods_eq_ok : g.checkMethods = .ok () ↔ ∀ c ∈ g.ids, g.MethodsLawful c := by
  have hpass := verifies_checkMethodsOf hg hacyclic (g.nodes.length + 1) [] [] g.ids
    List.nodup_nil nofun (fun _ h => h) nofun (by simp)
  constructor
  · intro h c hc
    rw [checkMethods] at h
    rcases hr : g.ids.foldlM (fun seen id => g.checkMethodsOf (g.nodes.length + 1) seen id) []
      with v | seen'
    · rw [hr] at h
      cases h
    · obtain ⟨h₁, -, h₃⟩ := (hr ▸ hpass).good hg howner ⟨nofun, nofun, nofun, nofun⟩ fun _ h => h
      obtain ⟨ms, hms⟩ := Option.isSome_iff_exists.mp (h₃ c hc)
      exact h₁.lawful hms
  · intro h
    rcases hr : g.checkMethods with v | _
    · obtain ⟨c, hc, seen, hgood, hseen, hfail⟩ := exists_of_checkMethods hg howner hacyclic hr
      cases hfail.symm.trans ((hgood.checkMethodsAt_eq_ok hg howner hseen).mpr (h c hc))
    · rfl

end acyclic

end pass

/-! ### The whole verification -/

theorem checkKinds_eq_ok (hg : g.Sound) : g.checkKinds = .ok () ↔ ∀ c ∈ g.ids, g.RightKinds c := by
  rw [checkKinds, checkEach_eq_ok]
  simp only [List.mem_filter, checkParents_eq_ok, Bool.not_eq_true']
  refine ⟨fun h c hc => ?_, fun h c hc => h c hc.1⟩
  rcases hp : (g.node c).isPlaceholder
  · exact h c ⟨hc, hp⟩
  · -- a placeholder has no parents
    obtain ⟨hext, himp⟩ := List.append_eq_nil_iff.mp (hg.placeholder hc hp).1
    refine ⟨fun _ p hp => ?_, fun _ p hp => ?_, fun p hp => ?_⟩
    · rw [Extends, hext] at hp
      cases hp
    · rw [Extends, hext] at hp
      cases hp
    · rw [himp] at hp
      cases hp

namespace Represents

variable {us : List CompilationUnit}

/-- Methods know the type that they are declared in. -/
theorem owner (h : g.Represents us) : ∀ d ∈ g.ids, ∀ m ∈ (g.node d).methods,
    m.owner = (g.node d).name := by
  intro d hd m hm
  rcases hp : (g.node d).isPlaceholder
  · obtain ⟨u, -, hdesc⟩ := h.declared d hd hp
    have hmethods : (g.node d).methods = u.decl.methods u.qualifiedName :=
      congrArg (·.methods) hdesc.bare
    rw [hmethods] at hm
    rw [hdesc.name]
    rcases hdecl : u.decl with c | i <;> rw [hdecl] at hm <;> obtain ⟨decl, -, rfl⟩ := List.mem_map.mp hm
    · rfl
    · rfl
  · rw [(h.sound.placeholder hd hp).2] at hm
    cases hm

theorem verify_eq_ok (h : g.Represents us) {allowUnresolved : Bool} :
    g.verify allowUnresolved = .ok () ↔ g.Lawful allowUnresolved := by
  have hsplit : g.verify allowUnresolved = .ok () ↔
      (allowUnresolved = true ∨ g.checkResolved = .ok ()) ∧ g.checkKinds = .ok () ∧
        g.checkAcyclic = .ok () ∧ g.checkMethods = .ok () := by
    rw [verify]
    cases allowUnresolved with
    | false => simp [seq_eq_ok]
    | true => simp [seq_eq_ok]
  rw [hsplit, checkResolved_eq_ok, checkKinds_eq_ok h.sound, checkAcyclic_eq_ok h.sound]
  constructor
  · rintro ⟨hr, hk, ha, hm⟩
    have hm := (checkMethods_eq_ok h.sound h.owner ha).mp hm
    exact ⟨hr, hk, ha, fun c hc => (hm c hc).1, fun c hc => (hm c hc).2⟩
  · rintro ⟨hr, hk, ha, ho, hm⟩
    exact ⟨hr, hk, ha, (checkMethods_eq_ok h.sound h.owner ha).mpr fun c hc => ⟨ho c hc, hm c hc⟩⟩

end Represents

theorem ofUnits_eq_ok {us : List CompilationUnit} :
    ofUnits us = .ok g ↔ empty.declareAll us = (g, .ok ()) := by
  rw [ofUnits]
  rcases empty.declareAll us with ⟨g', e | _⟩
  · simp
  · simp

/-- A program passes verification exactly if it obeys the rules. The passes do
not depend on the counts that bound their depth: each ends by itself, the one
over the methods on every graph on which it is run. -/
theorem verify_ok_iff_lawful (us : List CompilationUnit) (g : Graph) (h : ofUnits us = .ok g)
    (allowUnresolved : Bool) :
    (g.verify allowUnresolved = .ok () ↔ g.Lawful allowUnresolved) ∧
    g.Searches [] [] g.ids
      (g.ids.foldlM (fun visited id => g.findCycle (g.nodes.length + 1) [] visited id) []) ∧
    (g.checkAcyclic = .ok () → g.Verifies [] g.ids
      (g.ids.foldlM (fun seen id => g.checkMethodsOf (g.nodes.length + 1) seen id) [])) := by
  have hr := declareAll_represents (ofUnits_eq_ok.mp h)
  have hs := hr.sound
  refine ⟨hr.verify_eq_ok, ?_, fun hacyclic => ?_⟩
  · exact searches_findCycle hs _ [] [] g.ids List.nodup_nil nofun (fun _ h => h) (by simp)
  · exact verifies_checkMethodsOf hs ((checkAcyclic_eq_ok hs).mp hacyclic) _ [] [] g.ids
      List.nodup_nil nofun (fun _ h => h) nofun (by simp)

end Graph

/-- A class of the unnamed package with one method. -/
def CompilationUnit.classWith (name : String) (parent : Option String) (modifiers : List Modifier)
    (method : String) : CompilationUnit :=
  of (.ofClass ⟨[], name, parent.map (⟨·, false, .zero⟩), [],
    [.method ⟨modifiers, none, method, [], none, .zero⟩], .zero⟩)

/-- A class replaces a method of its parent's parent, which may be final. -/
def replacingUnits (modifiers : List Modifier) : List CompilationUnit :=
  [.classWith "A" (some "B") [.isPublic] "m", .classWith "B" (some "C") [.isPublic] "n",
    .classWith "C" none (.isPublic :: modifiers) "m"]

theorem replacingUnits_lawful :
    (∃ g, Graph.ofUnits (replacingUnits []) = .ok g ∧ g.Lawful false) ∧
    ∃ g, Graph.ofUnits (replacingUnits [.isFinal]) = .ok g ∧ ¬ g.Lawful true := by
  constructor
  · refine ⟨(Graph.empty.declareAll (replacingUnits [])).1, rfl, ?_⟩
    exact (Graph.verify_ok_iff_lawful (replacingUnits []) _ rfl false).1.mp rfl
  · refine ⟨(Graph.empty.declareAll (replacingUnits [.isFinal])).1, rfl, fun h => ?_⟩
    have := (Graph.verify_ok_iff_lawful (replacingUnits [.isFinal]) _ rfl true).1.mpr h
    cases this

end ClassCompiler
