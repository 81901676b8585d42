import ClassCompiler.Proofs.Codegen.Lines
import ClassCompiler.Proofs.Codegen.Linking
import ClassCompiler.Proofs.Output.Runs

/-!
# Jumps and temporary labels over a run

The units of a run share one count of temporary labels. A label is drawn before
the code that jumps to it and is placed at the latest at the end of its routine,
in an order that each construct has for itself; over the whole run, each label
that was drawn is placed once. A jump never leaves its routine: the label that it
goes to stands between the entry of the routine and its return. The code of the
vtables and tables has no jumps.

Key definitions: `Instr.target?`, `Listing.Numbers`, `Routine.Encloses`, `Listing.JumpsStay`,
`Listing.Closed`.

Key theorems: `CompilationUnit.closed_of_gives`, `Layout.count_temporary_listings`,
`generateAll_jumps_closed`.
-/

namespace ClassCompiler

/-- The label at which an instruction may go on instead of the next line. -/
def Instr.target? : Instr → Option Label
  | .jmp target | .jumpIf _ target => some target
  | _ => none

theorem Instr.mem_references_of_target? {i : Instr} {l : Label} (h : i.target? = some l) :
    l ∈ i.references := by
  cases i with
  | jmp | jumpIf =>
    obtain rfl := Option.some.inj h
    exact List.mem_singleton_self _
  | _ => cases h

/-- Whether a line has nothing to do with temporary labels: it places none, and
is no jump. -/
def Line.isStill : Line Instr → Bool
  | .label (.temporary _) => false
  | .instr i => i.target?.isNone
  | _ => true

/-- A jump between these lines stays in a routine: it goes to a label that stands
between the entry of the routine and its return. -/
def Routine.Encloses (r : Routine) (before after : Listing) (target : Label) : Prop :=
  ∃ head inner rest tail : Listing, before = head ++ .label (.symbol r.symbol) :: inner ∧
    after = rest ++ .instr .ret :: tail ∧
    (∀ line ∈ inner ++ rest, line ≠ .instr .ret ∧ ∀ name, line ≠ .label (.symbol name)) ∧
    target ∈ (inner ++ rest).labels

namespace Listing

/-- The temporary labels from `n` up to `n'` are defined once each, and no other
temporary label is. -/
def Numbers (ls : Listing) (n n' : Nat) : Prop :=
  n ≤ n' ∧ ∀ k, ls.definitions.count (.temporary k) = if n ≤ k ∧ k < n' then 1 else 0

/-- Every jump stays in one of the routines. -/
def JumpsStay (rs : List Routine) (ls : Listing) : Prop :=
  ∀ (before : Listing) (i : Instr) (after : Listing) (target : Label),
    ls = before ++ .instr i :: after → i.target? = some target →
    ∃ r ∈ rs, r.Encloses before after target

def Still (ls : Listing) : Prop := ∀ line ∈ ls, line.isStill = true

/-! ### Temporary labels -/

theorem count_definitions (ls : Listing) (k : Nat) :
    ls.definitions.count (.temporary k) = ls.labels.count (.temporary k) := by
  induction ls with
  | nil => rfl
  | cons line ls ih =>
    cases line with
    | label l =>
      show List.count _ (l :: definitions ls) = List.count _ (l :: labels ls)
      rw [List.count_cons, List.count_cons, ih]
    | data symbol value =>
      show List.count _ (Label.symbol symbol :: definitions ls) = List.count _ (labels ls)
      rw [List.count_cons_of_ne (by simp), ih]
    | _ => exact ih

theorem Defines.numbers {ls : Listing} {n n' : Nat} (h : ls.Defines n n') : ls.Numbers n n' :=
  ⟨h.1, fun k => (ls.count_definitions k).trans (h.2.1 k)⟩

theorem Still.numbers {ls : Listing} (h : ls.Still) (n : Nat) : ls.Numbers n n := by
  refine ⟨Nat.le_refl n, fun k => ?_⟩
  have hnone : .temporary k ∉ ls.labels := by
    intro hm
    cases h _ (mem_labels.mp hm)
  rw [count_definitions, List.count_eq_zero.mpr hnone, if_neg (by omega)]

theorem Numbers.append {as bs : Listing} {n n' n'' : Nat} (ha : as.Numbers n n')
    (hb : bs.Numbers n' n'') : (as ++ bs).Numbers n n'' := by
  obtain ⟨hle, hcount⟩ := ha
  obtain ⟨hle', hcount'⟩ := hb
  refine ⟨Nat.le_trans hle hle', fun k => ?_⟩
  rw [definitions_append, List.count_append, hcount, hcount']
  grind

/-! ### Jumps -/

theorem Still.append {as bs : Listing} (ha : as.Still) (hb : bs.Still) : (as ++ bs).Still :=
  List.forall_mem_append.mpr ⟨ha, hb⟩

theorem Still.flatMap {as : List α} {f : α → Listing} (h : ∀ a ∈ as, (f a).Still) :
    Still (as.flatMap f) :=
  List.forall_mem_flatMap.mpr h

theorem Still.jumpsStay {ls : Listing} (h : ls.Still) (rs : List Routine) : ls.JumpsStay rs := by
  rintro before i after target rfl htarget
  have hnone := h (.instr i) (List.mem_append_right _ List.mem_cons_self)
  rw [Line.isStill, htarget] at hnone
  cases hnone

theorem JumpsStay.mono {ls : Listing} {rs rs' : List Routine} (h : ls.JumpsStay rs) (hs : rs ⊆ rs') :
    ls.JumpsStay rs' := by
  intro before i after target hls htarget
  obtain ⟨r, hr, hin⟩ := h before i after target hls htarget
  exact ⟨r, hs hr, hin⟩

/-- A jump is in the one part or in the other, and further lines around a
routine do not matter. -/
theorem JumpsStay.append {as bs : Listing} {rs : List Routine} (ha : as.JumpsStay rs)
    (hb : bs.JumpsStay rs) : (as ++ bs).JumpsStay rs := by
  intro before i after target hls htarget
  rcases List.append_eq_append_iff.mp hls with ⟨between, rfl, hbs⟩ | ⟨between, has, hafter⟩
  · obtain ⟨r, hr, head, inner, rest, tail, rfl, hin⟩ := hb between i after target hbs htarget
    exact ⟨r, hr, as ++ head, inner, rest, tail, by rw [List.append_assoc], hin⟩
  · cases between with
    | nil =>
      -- the jump is the first line of the second part
      obtain ⟨r, hr, head, inner, rest, tail, hhead, -⟩ := hb [] i after target hafter.symm htarget
      simp at hhead
    | cons line between =>
      obtain ⟨rfl, rfl⟩ := List.cons.inj hafter
      obtain ⟨r, hr, head, inner, rest, tail, hbefore, rfl, hin⟩ := ha before i between target has htarget
      exact ⟨r, hr, head, inner, rest, tail ++ bs, hbefore, by simp, hin⟩

/-- A jump in a body that refers to its own labels only goes to another line of
the body. -/
theorem target_mem_labels {inner rest : Listing} {i : Instr} {target : Label}
    (hbody : InBody (inner ++ .instr i :: rest)) (hrefs : RefersTo [] (inner ++ .instr i :: rest))
    (htarget : i.target? = some target) : target ∈ labels (inner ++ rest) := by
  have hmem : Line.instr i ∈ inner ++ .instr i :: rest := List.mem_append_right _ List.mem_cons_self
  have href := Instr.mem_references_of_target? htarget
  have hdefined := (hrefs target (List.mem_flatMap.mpr ⟨_, hmem, href⟩)).resolve_right List.not_mem_nil
  obtain ⟨k, rfl⟩ : ∃ k, target = .temporary k := by
    cases hbody _ hmem with
    | instr _ htemporary => exact htemporary _ href
  rw [← List.count_pos_iff, ← count_definitions, List.count_pos_iff]
  simpa [definitions, List.filterMap_append, Line.definition?] using hdefined

/-- The lines of one routine. -/
theorem jumpsStay_routine {r : Routine} {head body : Listing} (hhead : head.Still)
    (hbody : body.InBody) (hrefs : body.RefersTo []) (hnames : ∀ name, .symbol name ∉ body.labels) :
    JumpsStay [r] (head ++ .label (.symbol r.symbol) :: (body ++ [.instr .ret])) := by
  have hlines : ∀ line ∈ body, line ≠ .instr .ret ∧ ∀ name, line ≠ .label (.symbol name) := by
    intro line hline
    refine ⟨?_, ?_⟩
    · rintro rfl
      exact hbody.ret_notMem hline
    · rintro name rfl
      exact hnames name (mem_labels.mpr hline)
  have hlabel : JumpsStay [r] (.label (.symbol r.symbol) :: (body ++ [.instr .ret])) := by
    intro before i after target hls htarget
    -- neither the entry nor the return is a jump
    have hret : i ≠ .ret := by
      rintro rfl
      cases htarget
    cases before with
    | nil => cases hls
    | cons line inner =>
      obtain ⟨rfl, hsplit⟩ := List.cons.inj hls
      obtain ⟨rest, rfl, rfl⟩ : ∃ rest, body = inner ++ .instr i :: rest ∧ after = rest ++ [.instr .ret] := by
        rcases List.append_eq_append_iff.mp hsplit with ⟨between, -, hend⟩ | ⟨between, rfl, hafter⟩
        · have hmem : Line.instr i ∈ [Line.instr Instr.ret] := by
            rw [hend]
            exact List.mem_append_right _ List.mem_cons_self
          exact absurd (Line.instr.inj (List.mem_singleton.mp hmem)) hret
        · cases between with
          | nil => exact absurd (Line.instr.inj (List.cons.inj hafter).1) hret
          | cons line rest =>
            obtain ⟨rfl, rfl⟩ := List.cons.inj hafter
            exact ⟨rest, rfl, rfl⟩
      refine ⟨r, List.mem_singleton_self r, [], inner, rest, [], rfl, rfl, fun line hline => ?_,
        target_mem_labels hbody hrefs htarget⟩
      refine hlines line ?_
      rcases List.mem_append.mp hline with hl | hl
      · exact List.mem_append_left _ hl
      · exact List.mem_append_right _ (List.mem_cons_of_mem _ hl)
  exact (hhead.jumpsStay [r]).append hlabel

end Listing

open Listing

/-! ### The files of units and tables -/

theorem still_importedSymbols (ss : List String) : (importedSymbols ss).Still := by
  intro line hline
  obtain ⟨s, -, rfl⟩ := List.mem_map.mp hline
  rfl

theorem ClassLayout.still_vtableListing (c : ClassLayout) (typeName : String) :
    (c.vtableListing typeName).Still := by
  have himports := still_importedSymbols (Symbol.malloc :: c.foreignLabels typeName)
  have hfill : Still (c.vtable.zipIdx.flatMap fun p => p.1.fill p.2) :=
    .flatMap fun p _ => List.forall_mem_cons.mpr ⟨rfl, List.forall_mem_singleton.mpr rfl⟩
  unfold vtableListing
  refine .append (.append (.append (.append (.append (.append ?_ himports) ?_) ?_) ?_) hfill) ?_
  all_goals simp [Still, exportedCell, allocate, Line.isStill, Instr.target?]

theorem still_fillTable (table : String) (rows columns : Nat) (cells : List (List Word)) :
    (fillTable table rows columns cells).Still := by
  have hallocate : ∀ words, (allocate words).Still := by simp [Still, allocate, Line.isStill, Instr.target?]
  refine .append (.append (hallocate rows) ?_) (.flatMap fun p _ => ?_)
  · simp [Still, Line.isStill, Instr.target?]
  · refine .append (.append (hallocate columns) ?_) ?_
    · simp [Still, Line.isStill, Instr.target?]
    · intro line hline
      obtain ⟨q, -, rfl⟩ := List.mem_map.mp hline
      rfl

theorem Layout.still_tablesListing (l : Layout) : l.tablesListing.Still := by
  have himports := still_importedSymbols (Symbol.malloc :: l.selector.flatten.filterMap id)
  unfold tablesListing
  refine .append (.append (.append (.append (.append (.append ?_ himports) ?_)
    (still_fillTable _ _ _ _)) ?_) (still_fillTable _ _ _ _)) ?_
  all_goals simp [Still, exportedCell, Line.isStill, Instr.target?]

/-- Code that places the temporary labels from `n` up to `n'` once each and
jumps inside its routines only. -/
structure Listing.Closed (rs : List Routine) (ls : Listing) (n n' : Nat) : Prop where
  numbers : ls.Numbers n n'
  jumps : ls.JumpsStay rs

namespace Listing

theorem Still.closed {ls : Listing} (h : ls.Still) (rs : List Routine) (n : Nat) : Closed rs ls n n :=
  ⟨h.numbers n, h.jumpsStay rs⟩

theorem Closed.append {as bs : Listing} {rs ts : List Routine} {n n' n'' : Nat}
    (ha : Closed rs as n n') (hb : Closed ts bs n' n'') : Closed (rs ++ ts) (as ++ bs) n n'' := by
  have hleft : as.JumpsStay (rs ++ ts) := ha.jumps.mono (List.subset_append_left rs ts)
  have hright : bs.JumpsStay (rs ++ ts) := hb.jumps.mono (List.subset_append_right rs ts)
  exact ⟨ha.numbers.append hb.numbers, hleft.append hright⟩

end Listing

section
variable {owner : String} {n n' : Nat} {ls : Listing} {x : Unit}

theorem Routine.closed_of_gives {r : Routine} (h : r.emit.Gives n ls n' x) : Closed [r] ls n n' := by
  obtain ⟨body, rfl, hbody, hrefs, hdefines⟩ := lines_of_gives h
  have hhead : Still [.blank, r.caption, .exported r.symbol] := by
    simp [Still, Routine.caption, Line.isStill]
  have hentry : Still [.label (.symbol r.symbol)] := List.forall_mem_singleton.mpr rfl
  have hend : Still [.instr .ret] := List.forall_mem_singleton.mpr rfl
  refine ⟨?_, jumpsStay_routine hhead hbody hrefs hdefines.2.2⟩
  exact (hhead.numbers n).append ((hentry.numbers n).append (hdefines.numbers.append (hend.numbers n')))

theorem Member.closed_of_gives {member : Member} (h : (member.emit owner).Gives n ls n' x) :
    Closed (member.routine? owner).toList ls n n' := by
  rcases hr : member.routine? owner with _ | r
  · obtain ⟨rfl, rfl | ⟨m, -, rfl⟩⟩ := Member.remark_of_gives hr h
    · exact Still.closed (List.forall_mem_nil _) [] n'
    · have hremark : ∀ text, Still [.blank, .header text] :=
        fun _ => List.forall_mem_cons.mpr ⟨rfl, List.forall_mem_singleton.mpr rfl⟩
      exact (hremark _).closed [] n'
  · rw [Member.emit_of_routine? hr] at h
    exact Routine.closed_of_gives h

/-- The labels of one member come after those of the members before it. -/
theorem Member.closedAll_of_gives : ∀ {members : List Member} {n n' : Nat} {ls : Listing},
    (Emit.each (Member.emit owner) members).Gives n ls n' x →
    Closed (members.filterMap (Member.routine? owner)) ls n n'
  | [], n, n', ls, h => by
    obtain ⟨rfl, rfl, -⟩ := Emit.gives_pure.mp h
    exact Still.closed (List.forall_mem_nil _) [] n'
  | member :: members, n, n', ls, h => by
    obtain ⟨piece, k, _, rest, hm, hrest, rfl⟩ := Emit.gives_bind.mp h
    have happend := (Member.closed_of_gives hm).append (Member.closedAll_of_gives hrest)
    rwa [List.filterMap_eq_flatMap_toList, List.flatMap_cons, ← List.filterMap_eq_flatMap_toList]

end

namespace CompilationUnit

/-- The routines of a unit's class. -/
def routines (u : CompilationUnit) : List Routine :=
  match u.decl with
  | .ofClass c => c.members.filterMap (Member.routine? u.qualifiedName)
  | .ofInterface _ => []

variable {layout : Layout} {u : CompilationUnit} {n n' : Nat} {ls : Listing} {x : Unit}

theorem closed_of_gives (h : (u.emit layout).Gives n ls n' x) : Closed u.routines ls n n' := by
  rcases code_of_gives h with ⟨i, hd, rfl⟩ | ⟨c, cl, code, k, hd, hcl, hcode, rfl⟩
  · obtain rfl := nextLabel_of_interface hd h
    exact Still.closed (by simp [Still, Line.isStill]) _ n'
  · obtain rfl := nextLabel_of_gives hd h hcode
    have hhead : Still [.header u.qualifiedName, .segment ".text"] := by simp [Still, Line.isStill]
    have hvtable := (cl.still_vtableListing u.qualifiedName).closed [] n'
    have hfile := (hhead.closed [] n).append ((Member.closedAll_of_gives hcode).append hvtable)
    simpa only [routines, hd, List.nil_append, List.append_nil] using hfile

end CompilationUnit

namespace Layout

/-- The labels of one unit come after those of the units before it. -/
theorem numbers_emissions {l : Layout} : ∀ {us : List CompilationUnit} {n : Nat},
    (∀ e ∈ l.emissions n us, e.result = .ok ()) →
    Numbers ((l.emissions n us).flatMap (·.lines)) n (l.labelAfter n us)
  | [], n, _ => Still.numbers (List.forall_mem_nil _) n
  | u :: us, n, h => by
    obtain ⟨hresult, hresults⟩ := List.forall_mem_cons.mp h
    have hgives : (u.emit l).Gives n (u.emit l n).lines (u.emit l n).nextLabel () := by
      rw [Emit.Gives, ← hresult]
    exact (CompilationUnit.closed_of_gives hgives).numbers.append (numbers_emissions hresults)

variable {l : Layout} {us : List CompilationUnit} (hok : ∀ e ∈ l.emissions 0 us, e.result = .ok ())
include hok

/-- Each temporary label that was drawn is defined once, over all files. -/
theorem count_temporary_listings (n : Nat) :
    ((l.listings us).flatMap Listing.definitions).count (.temporary n) =
      if n < l.labelAfter 0 us then 1 else 0 := by
  have hfiles : Numbers ((l.listings us).flatten) 0 (l.labelAfter 0 us) := by
    have hunits := numbers_emissions hok
    have htables := l.still_tablesListing.numbers (l.labelAfter 0 us)
    rw [listings, List.flatten_append, List.flatten_singleton, ← List.flatMap_def]
    exact hunits.append htables
  have hflatten : (l.listings us).flatMap Listing.definitions = definitions (l.listings us).flatten := by
    rw [definitions, List.filterMap_flatten, ← List.flatMap_def]
    rfl
  rw [hflatten, hfiles.2 n]
  simp

/-- A temporary label that a file refers to is defined in that file. -/
theorem temporary_mem_definitions {ls : Listing} (hls : ls ∈ l.listings us) {n : Nat}
    (h : .temporary n ∈ ls.references) : .temporary n ∈ ls.definitions := by
  obtain ⟨i, hi⟩ := List.mem_iff_getElem?.mp hls
  rcases getElem?_listings hok hi with ⟨u, k, k', -, hgives⟩ | ⟨-, rfl⟩
  · rcases CompilationUnit.references_of_gives hgives h with
      hd | ⟨s, -, hs⟩ | ⟨cl, -, e, -, -, -, hs⟩
    · exact hd
    · cases hs
    · cases hs
  · refine (l.refersTo_tablesListing _ h).resolve_right ?_
    simp [references]

/-- Where all names are those of the grammar, no other symbol is written like a
temporary label. -/
theorem count_temporary_defined (hnames : ∀ u ∈ us, u.isWellNamed = true) (n : Nat) :
    ((l.listings us).flatMap Listing.defined).count (Symbol.temporary n) =
      ((l.listings us).flatMap Listing.definitions).count (.temporary n) := by
  have hdefined : (l.listings us).flatMap Listing.defined =
      ((l.listings us).flatMap Listing.definitions).map Label.text := by
    rw [List.map_flatMap]
    rfl
  rw [hdefined, List.count, List.countP_map, List.count]
  refine List.countP_congr fun label hlabel => ?_
  obtain ⟨ls, hls, hlabel⟩ := List.mem_flatMap.mp hlabel
  obtain ⟨i, hi⟩ := List.mem_iff_getElem?.mp hls
  obtain ⟨rs, hrs, hp⟩ := publishes_listings hok hi
  have hwell := fun r => isWellNamed_of_mem_programReferents hnames (List.mem_of_getElem? hrs) (r := r)
  simp only [Function.comp_apply, beq_iff_eq]
  constructor
  · intro htext
    cases label with
    | temporary k =>
      have hsame : Referent.temporary k = .temporary n := Referent.symbol_inj rfl rfl htext
      rw [Referent.temporary.inj hsame]
    | symbol name =>
      have hname : name ∈ ls.names := mem_names.mpr hlabel
      rw [hp.names] at hname
      obtain ⟨r, hr, rfl⟩ := List.mem_map.mp hname
      obtain rfl : r = .temporary n := Referent.symbol_inj (hwell r hr) rfl htext
      exact absurd hr (notMem_programReferents (List.mem_of_getElem? hrs) rfl (by simp))
  · rintro rfl
    rfl

end Layout

/-- Over a run that succeeds, each temporary label up to the last one drawn is
defined in one place of all the files that were written, those that a later file
of the same name replaced included, and no other is defined or referred to. A
jump stays in its routine. -/
theorem generateAll_jumps_closed (o : Options) (l : Layout) (us : List CompilationUnit)
    (d d' : Directory) (paths : List String) (h : generateAll o l us d = (d', .ok paths)) :
    d.Received (l.files o.comments us) d' ∧
    ∃ out unitPaths, generateUnits o l ⟨d, 0⟩ us = (out, .ok unitPaths) ∧
      out.nextLabel = l.labelAfter 0 us ∧
      (∀ n, ((l.listings us).flatMap Listing.definitions).count (.temporary n) =
        if n < out.nextLabel then 1 else 0) ∧
      (∀ ls ∈ l.listings us, ∀ n, .temporary n ∈ ls.references →
        n < out.nextLabel ∧ .temporary n ∈ ls.definitions) ∧
      (∀ (i : Nat) (u : CompilationUnit) (ls : Listing), us[i]? = some u →
        (l.listings us)[i]? = some ls → ls.JumpsStay u.routines) ∧
      l.tablesListing.JumpsStay [] ∧
      ((∀ u ∈ us, u.isWellNamed = true) → ∀ n,
        ((l.listings us).flatMap Listing.defined).count (Symbol.temporary n) =
          if n < out.nextLabel then 1 else 0) := by
  obtain ⟨hok, -, ⟨out, unitPaths, hunits, hnext⟩, hfiles⟩ := generateAll_ok h
  refine ⟨hfiles, out, unitPaths, hunits, hnext, ?_, ?_, ?_, l.still_tablesListing.jumpsStay [], ?_⟩
  · intro n
    rw [hnext]
    exact Layout.count_temporary_listings hok n
  · intro ls hls n hn
    have hdefined := Layout.temporary_mem_definitions hok hls hn
    refine ⟨?_, hdefined⟩
    have hpos := List.count_pos_iff.mpr (List.mem_flatMap.mpr ⟨ls, hls, hdefined⟩)
    rw [Layout.count_temporary_listings hok] at hpos
    rw [hnext]
    by_contra hge
    rw [if_neg hge] at hpos
    exact absurd hpos (Nat.lt_irrefl 0)
  · intro i u ls hu hls
    obtain ⟨ls', k, k', hls', hgives⟩ := Layout.exists_listing hok hu
    obtain rfl := Option.some.inj (hls.symm.trans hls')
    exact (CompilationUnit.closed_of_gives hgives).jumps
  · intro hnames n
    rw [Layout.count_temporary_defined hok hnames, hnext]
    exact Layout.count_temporary_listings hok n

/-- Five routines with a loop each: the run draws fifteen labels. -/
theorem linkedUnits_jumps : ∃ l d' paths,
    generateAll ⟨"out", false, true⟩ l linkedUnits usedDirectory = (d', .ok paths) ∧
    (∀ u ∈ linkedUnits, u.isWellNamed = true) ∧
    ∀ n, ((l.listings linkedUnits).flatMap Listing.defined).count (Symbol.temporary n) =
      if n < 15 then 1 else 0 := by
  obtain ⟨l, d', paths, hlayout, hrun⟩ := linkedUnits_run
  have hnames : ∀ u ∈ linkedUnits, u.isWellNamed = true := by decide
  have hlabels : l.labelAfter 0 linkedUnits = 15 := by
    cases hlayout
    decide +kernel
  obtain ⟨-, out, unitPaths, -, hnext, -, -, -, -, hdefined⟩ :=
    generateAll_jumps_closed ⟨"out", false, true⟩ l linkedUnits usedDirectory d' paths hrun
  refine ⟨l, d', paths, hrun, hnames, fun n => ?_⟩
  rw [hdefined hnames n, hnext, hlabels]

end ClassCompiler
