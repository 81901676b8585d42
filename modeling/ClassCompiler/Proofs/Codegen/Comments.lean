import ClassCompiler.Proofs.Codegen.Linking
import ClassCompiler.Proofs.Codegen.Lines

/-!
# Comments

Comments are lines of their own, and nothing else depends on whether they are
written. So the text without comments is the text with them, less the lines
that look like one: a semicolon and a space at the start of the line, or after
four spaces. For this, no other line may look like one. Directives, data and
instructions never do; a label is the symbol of a routine, which starts as the
name of its class does.

Key definitions: `Text.isRemark`, `Text.withoutRemarks`, `Line.Legible`, `Layout.shownNames`,
`CompilationUnit.shownNames`.

Key theorems: `Text.withoutRemarks_lines`, `Listing.withoutRemarks_text`,
`CompilationUnit.legible_of_gives`, `Layout.withoutRemarks_render`.
-/

namespace ClassCompiler

/-! ### Lines of a text -/

namespace Text

/-- A text that fits on one line. -/
def OneLine (s : String) : Prop := '\n' ∉ s.toList

instance (s : String) : Decidable (OneLine s) := inferInstanceAs (Decidable ('\n' ∉ s.toList))

/-- How a comment starts. -/
def remarkStarts : List (List Char) := [[';', ' '], [' ', ' ', ' ', ' ', ';', ' ']]

def isRemark (line : List Char) : Bool := remarkStarts.any (·.isPrefixOf line)

theorem isRemark_cons (c : Char) (cs : List Char) : isRemark (c :: cs) =
    (';' == c && [' '].isPrefixOf cs || ' ' == c && [' ', ' ', ' ', ';', ' '].isPrefixOf cs) := by
  simp [isRemark, remarkStarts, List.isPrefixOf]

/-- A text without those of its lines that look like a comment. -/
def withoutRemarks (text : String) : String :=
  String.ofList (['\n'].intercalate ((Path.split '\n' text.toList).filter fun line => !isRemark line))

@[simp] theorem oneLine_append {a b : String} : OneLine (a ++ b) ↔ OneLine a ∧ OneLine b := by
  simp [OneLine]

theorem oneLine_join {ss : List String} (h : ∀ s ∈ ss, OneLine s) : OneLine (String.join ss) := by
  simp only [OneLine, String.toList_join, List.mem_flatMap, not_exists, not_and]
  exact h

@[simp] theorem oneLine_repr (n : Nat) : OneLine n.repr := by
  rw [OneLine, Nat.repr_eq_ofList_toDigits, String.toList_ofList]
  intro h
  cases Nat.isDigit_of_mem_toDigits (by decide) (by decide) h

@[simp] theorem oneLine_repr_int (n : Int) : OneLine n.repr := by
  cases n with
  | ofNat m => exact oneLine_repr m
  | negSucc m => exact oneLine_append.mpr ⟨by decide, oneLine_repr _⟩

theorem oneLine_intercalate {sep : String} {ss : List String} (hsep : OneLine sep)
    (h : ∀ s ∈ ss, OneLine s) : OneLine (sep.intercalate ss) := by
  induction ss with
  | nil => exact List.not_mem_nil
  | cons s ss ih =>
    obtain ⟨hs, hss⟩ := List.forall_mem_cons.mp h
    cases ss with
    | nil => simpa using hs
    | cons t ts =>
      rw [String.intercalate_cons_cons, oneLine_append, oneLine_append]
      exact ⟨⟨hs, hsep⟩, ih hss⟩

theorem toList_lines (ls : List String) :
    (lines ls).toList = ['\n'].intercalate (ls.map (·.toList) ++ [[]]) := by
  induction ls with
  | nil => rfl
  | cons s ls ih =>
    have hcons : (lines (s :: ls)).toList = s.toList ++ '\n' :: (lines ls).toList := by
      simp [lines]
    obtain ⟨t, ts, ht⟩ : ∃ t ts, ls.map (·.toList) ++ [[]] = t :: ts := by
      cases ls with
      | nil => exact ⟨_, _, rfl⟩
      | cons => exact ⟨_, _, rfl⟩
    rw [hcons, ih, List.map_cons, List.cons_append, ht, List.intercalate_cons_cons]
    simp

/-- Lines without line breaks can be read back from their text. -/
theorem split_lines {ls : List String} (h : ∀ s ∈ ls, OneLine s) :
    Path.split '\n' (lines ls).toList = ls.map (·.toList) ++ [[]] := by
  have hparts : ∀ part ∈ ls.map (·.toList) ++ [[]], '\n' ∉ part :=
    List.forall_mem_append.mpr ⟨List.forall_mem_map.mpr h, by simp⟩
  rw [toList_lines, Path.split_intercalate (by simp) hparts]

/-- Of lines without line breaks, those stay that do not look like a comment. -/
theorem withoutRemarks_lines {ls : List String} (h : ∀ s ∈ ls, OneLine s) :
    withoutRemarks (lines ls) = lines (ls.filter fun s => !isRemark s.toList) := by
  have hlast : isRemark [] = false := rfl
  rw [← String.toList_inj, withoutRemarks, String.toList_ofList, split_lines h, toList_lines,
    List.filter_append, List.filter_map]
  simp [hlast, Function.comp_def]

end Text

open Text

/-! ### Lines of a listing -/

/-- A line without line breaks that looks like a comment exactly if it is one. -/
def Line.Legible (line : Line Instr) : Prop :=
  OneLine (line.text Instr.text) ∧ isRemark (line.text Instr.text).toList = line.isComment

namespace Listing

def Legible (ls : Listing) : Prop := ∀ line ∈ ls, line.Legible

theorem Legible.append {as bs : Listing} (ha : as.Legible) (hb : bs.Legible) : (as ++ bs).Legible :=
  List.forall_mem_append.mpr ⟨ha, hb⟩

theorem Legible.flatMap {as : List α} {f : α → Listing} (h : ∀ a ∈ as, (f a).Legible) :
    Legible (as.flatMap f) :=
  List.forall_mem_flatMap.mpr h

theorem text_eq_lines (comments : Bool) (ls : Listing) : ls.text comments =
    lines ((ls.filter fun line => comments || !line.isComment).map (Line.text Instr.text)) := by
  induction ls with
  | nil => rfl
  | cons line ls ih =>
    have hcons : text comments (line :: ls) = line.written Instr.text comments ++ text comments ls := by
      simp [text]
    rw [hcons, ih, Line.written]
    by_cases hshown : (comments || !line.isComment) = true
    · have hwritten : (line.isComment && !comments) = false := by grind
      simp [hshown, hwritten, lines]
    · have hwritten : (line.isComment && !comments) = true := by grind
      simp [hshown, hwritten, lines]

/-- The text without comments is the text with comments without its remarks. -/
theorem withoutRemarks_text {ls : Listing} (h : ls.Legible) :
    withoutRemarks (ls.text true) = ls.text false := by
  have hlines : ∀ s ∈ ls.map (Line.text Instr.text), OneLine s :=
    List.forall_mem_map.mpr fun line hline => (h line hline).1
  have hshown : ls.filter (fun line => true || !line.isComment) = ls := by simp
  have hfilter : ls.filter (fun line => !isRemark (line.text Instr.text).toList) =
      ls.filter fun line => false || !line.isComment := by
    refine List.filter_congr fun line hline => ?_
    rw [(h line hline).2, Bool.false_or]
  rw [text_eq_lines, text_eq_lines, hshown, withoutRemarks_lines hlines, List.filter_map, ← hfilter]
  rfl

end Listing

/-! ### Instructions and directives -/

theorem Register.oneLine_text (r : Register) : OneLine r.text := by
  cases r <;> simp [OneLine, Register.text]

theorem ArithOp.oneLine_mnemonic (op : ArithOp) : OneLine op.mnemonic := by
  cases op <;> simp [OneLine, ArithOp.mnemonic]

theorem Condition.oneLine_mnemonic (c : Condition) : OneLine c.mnemonic := by
  cases c <;> simp [OneLine, Condition.mnemonic]

theorem Address.oneLine_text {a : Address} (h : ∀ l ∈ a.references, OneLine l.text) : OneLine a.text := by
  cases a with
  | slot s => cases s <;> simp +decide [Address.text, Slot.text]
  | symbol name =>
    have hname : OneLine name := h (.symbol name) (List.mem_singleton_self _)
    simp +decide [Address.text, hname]
  | offset base bytes => simp +decide [Address.text, base.oneLine_text]

theorem Operand.oneLine_text {o : Operand} (h : ∀ l ∈ o.references, OneLine l.text) : OneLine o.text := by
  cases o with
  | reg r => exact r.oneLine_text
  | imm n => exact oneLine_repr_int n
  | mem a => exact Address.oneLine_text h

theorem Word.oneLine_text {w : Word} (h : ∀ l ∈ w.references, OneLine l.text) : OneLine w.text := by
  cases w with
  | number n => exact oneLine_repr n
  | symbol name => exact h (.symbol name) (List.mem_singleton_self _)

theorem Label.oneLine_temporary (n : Nat) : OneLine (Label.temporary n).text :=
  oneLine_append.mpr ⟨by decide, oneLine_repr n⟩

theorem Instr.oneLine_text {i : Instr} (h : ∀ l ∈ i.references, OneLine l.text) : OneLine i.text := by
  have hr := Register.oneLine_text
  cases i with
  | push r | pop r | neg r | xchg a b | idiv r => simp +decide [Instr.text, hr]
  | cdq | ret => decide
  | mov target source =>
    have hs : OneLine source.text := Operand.oneLine_text h
    simp +decide [Instr.text, hr, hs]
  | arith op target source =>
    have hs : OneLine source.text := Operand.oneLine_text h
    simp +decide [Instr.text, op.oneLine_mnemonic, hr, hs]
  | store target source =>
    have ht : OneLine target.text := Address.oneLine_text h
    simp +decide [Instr.text, hr, ht]
  | storeWord target value =>
    obtain ⟨ht, hv⟩ := List.forall_mem_append.mp h
    simp +decide [Instr.text, Address.oneLine_text ht, Word.oneLine_text hv]
  | jmp target =>
    have ht : OneLine target.text := h target (List.mem_singleton_self _)
    simp +decide [Instr.text, ht]
  | jumpIf condition target =>
    have ht : OneLine target.text := h target (List.mem_singleton_self _)
    simp +decide [Instr.text, condition.oneLine_mnemonic, ht]
  | call routine =>
    have hs : OneLine routine := h (.symbol routine) (List.mem_singleton_self _)
    simp +decide [Instr.text, hs]

/-- An instruction starts with its mnemonic. -/
theorem Instr.isRemark_text (i : Instr) : isRemark ("    " ++ i.text).toList = false := by
  cases i with
  | arith op => cases op <;> simp [isRemark_cons, List.isPrefixOf, Instr.text, ArithOp.mnemonic]
  | jumpIf condition =>
    cases condition <;> simp [isRemark_cons, List.isPrefixOf, Instr.text, Condition.mnemonic]
  | _ => simp [isRemark_cons, List.isPrefixOf, Instr.text]

namespace Line

theorem legible_instr {i : Instr} (h : ∀ l ∈ i.references, OneLine l.text) : Legible (.instr i) :=
  ⟨oneLine_append.mpr ⟨by decide, i.oneLine_text h⟩, i.isRemark_text⟩

/-- How a line starts decides whether it looks like a comment. -/
theorem legible_of_start {line : Line Instr} {start s : String} (ht : line.text Instr.text = start ++ s)
    (hstart : OneLine start) (hs : OneLine s)
    (hremark : ∀ cs, isRemark (start.toList ++ cs) = line.isComment) : line.Legible := by
  constructor
  · rw [ht]
    exact oneLine_append.mpr ⟨hstart, hs⟩
  · rw [ht, String.toList_append, hremark]

theorem legible_blank : Legible .blank := ⟨by decide, rfl⟩

section
variable {s : String} (h : OneLine s)
include h

theorem legible_comment : Legible (.comment s) := legible_of_start rfl (by decide) h fun _ => rfl

theorem legible_header : Legible (.header s) := legible_of_start rfl (by decide) h fun _ => rfl

theorem legible_segment : Legible (.segment s) := legible_of_start rfl (by decide) h fun _ => rfl

theorem legible_exported : Legible (.exported s) := legible_of_start rfl (by decide) h fun _ => rfl

theorem legible_imported : Legible (.imported s) := legible_of_start rfl (by decide) h fun _ => rfl

end

theorem legible_label {l : Label} (h : OneLine l.text) (hstart : isRemark (l.text ++ ":").toList = false) :
    Legible (.label l) :=
  ⟨oneLine_append.mpr ⟨h, by decide⟩, hstart⟩

theorem InBody.legible {line : Line Instr} (h : line.InBody) : line.Legible := by
  cases h with
  | caption s =>
    have hkind : OneLine s.kind.text := by cases s <;> simp [OneLine, Stmt.kind, NodeKind.text]
    exact legible_comment (by simp +decide [Span.text, hkind])
  | label n =>
    refine legible_label (Label.oneLine_temporary n) ?_
    simp [isRemark_cons, List.isPrefixOf, Label.text, Symbol.temporary]
  | instr _ hrefs =>
    refine legible_instr fun l hl => ?_
    obtain ⟨n, rfl⟩ := hrefs l hl
    exact Label.oneLine_temporary n

end Line

/-! ### Symbols -/

/-- The names that the text of a signature and its symbol are made of. -/
def Signature.shownNames (s : Signature) : List String := s.name :: s.parameters.map (·.typeName)

theorem Signature.oneLine_text {s : Signature} (h : ∀ name ∈ s.shownNames, OneLine name) :
    OneLine s.text := by
  obtain ⟨hname, hparameters⟩ := List.forall_mem_cons.mp h
  have htypes : ∀ t ∈ s.parameters.map (·.text), OneLine t := by
    refine List.forall_mem_map.mpr fun p hp => ?_
    have htype : OneLine p.typeName := hparameters _ (List.mem_map_of_mem hp)
    unfold ParameterType.text
    split
    · exact oneLine_append.mpr ⟨htype, by decide⟩
    · exact htype
  have hlist : OneLine (String.intercalate ", " (s.parameters.map (·.text))) :=
    oneLine_intercalate (by decide) htypes
  simp +decide [Signature.text, hname, hlist]

namespace Symbol

theorem oneLine_mangle {name : String} (h : OneLine name) : OneLine (mangle name) := by
  rw [OneLine, toList_mangle, List.mem_flatMap]
  rintro ⟨c, hc, hbreak⟩
  have hsame : c = '\n' := by
    unfold mangleChar at hbreak
    grind
  exact h (hsame ▸ hc)

theorem oneLine_parameters {ps : List ParameterType} (h : ∀ p ∈ ps, OneLine p.typeName) :
    OneLine (parameters ps) := by
  refine oneLine_join (List.forall_mem_map.mpr fun p hp => ?_)
  have hmangled := oneLine_mangle (h p hp)
  cases p.isArray <;> simp +decide [hmangled]

theorem oneLine_ofMethod {owner : String} {s : Signature} (ho : OneLine owner)
    (h : ∀ name ∈ s.shownNames, OneLine name) : OneLine (ofMethod owner s) := by
  obtain ⟨hname, hparameters⟩ := List.forall_mem_cons.mp h
  have hps := oneLine_parameters (List.forall_mem_map.mp hparameters)
  simp +decide [ofMethod, oneLine_mangle ho, oneLine_mangle hname, hps]

theorem oneLine_ofConstructor {owner : String} {s : Signature} (ho : OneLine owner)
    (h : ∀ name ∈ s.shownNames, OneLine name) : OneLine (ofConstructor owner s) := by
  have hps := oneLine_parameters (List.forall_mem_map.mp (List.forall_mem_cons.mp h).2)
  simp +decide [ofConstructor, oneLine_mangle ho, hps]

/-- Mangling changes no character that a comment starts with, and puts none there. -/
theorem isPrefixOf_mangle {rest : List Char} : ∀ {start cs : List Char},
    (∀ c ∈ start, mangleChar c = [c]) → start.isPrefixOf (cs.flatMap mangleChar ++ '_' :: rest) = true →
    start.isPrefixOf cs = true
  | [], _, _, _ => rfl
  | a :: start, [], hstart, h => by
    have ha : a = '_' := by simp_all [List.isPrefixOf]
    have hsame := hstart a List.mem_cons_self
    rw [ha] at hsame
    cases hsame
  | a :: start, c :: cs, hstart, h => by
    obtain ⟨ha, hrest⟩ := List.forall_mem_cons.mp hstart
    have hc : mangleChar c = [c] ∨ ∃ more, mangleChar c = '_' :: more := by
      unfold mangleChar
      grind
    rw [List.flatMap_cons] at h
    rcases hc with hc | ⟨more, hc⟩
    · rw [hc] at h
      simp only [List.cons_append, List.isPrefixOf, Bool.and_eq_true] at h ⊢
      exact ⟨h.1, isPrefixOf_mangle hrest h.2⟩
    · rw [hc] at h
      have ha' : a = '_' := by simp_all [List.isPrefixOf]
      rw [ha'] at ha
      cases ha

/-- The label of a method starts as the name of its class does. -/
theorem isRemark_ofMethod {owner : String} (h : isRemark owner.toList = false) (s : Signature) :
    isRemark (ofMethod owner s ++ ":").toList = false := by
  have hsymbol : (ofMethod owner s ++ ":").toList = owner.toList.flatMap mangleChar ++
      '_' :: ((mangle s.name).toList ++ (parameters s.parameters).toList ++ [':']) := by
    simp [ofMethod, toList_mangle]
  have hfixed : ∀ start ∈ remarkStarts, ∀ c ∈ start, mangleChar c = [c] := by
    simp [remarkStarts, mangleChar]
  simp only [isRemark, List.any_eq_false] at h ⊢
  intro start hstart hprefix
  rw [hsymbol] at hprefix
  exact h start hstart (isPrefixOf_mangle (hfixed start hstart) hprefix)

theorem isRemark_ofConstructor (owner : String) (s : Signature) :
    isRemark (ofConstructor owner s ++ ":").toList = false := by
  simp [isRemark_cons, List.isPrefixOf, ofConstructor]

end Symbol

/-! ### Routines and units -/

theorem Routine.legible_of_gives {r : Routine} {n n' : Nat} {ls : Listing} {x : Unit}
    (h : r.emit.Gives n ls n' x) (hname : OneLine r.name) (hsymbol : OneLine r.symbol)
    (hstart : isRemark (r.symbol ++ ":").toList = false) : ls.Legible := by
  obtain ⟨body, rfl, hbody, -, -⟩ := lines_of_gives h
  have hcaption : r.caption.Legible := by
    refine Line.legible_header (oneLine_append.mpr ⟨?_, hname⟩)
    split <;> simp [OneLine]
  have hret : Line.Legible (.instr .ret) := Line.legible_instr (List.forall_mem_nil _)
  have hbody' : body.Legible := fun line hline => (hbody line hline).legible
  have hend : Listing.Legible (body ++ [.instr .ret]) :=
    hbody'.append (List.forall_mem_singleton.mpr hret)
  have hlabel : Listing.Legible (.label (.symbol r.symbol) :: (body ++ [.instr .ret])) :=
    List.forall_mem_cons.mpr ⟨Line.legible_label hsymbol hstart, hend⟩
  have hexported : Listing.Legible [.exported r.symbol] :=
    List.forall_mem_singleton.mpr (Line.legible_exported hsymbol)
  refine Listing.Legible.append ?_ hlabel
  exact List.forall_mem_cons.mpr ⟨Line.legible_blank, List.forall_mem_cons.mpr ⟨hcaption, hexported⟩⟩

/-- The names of a member that its code shows. -/
def Member.shownNames : Member → List String
  | .field _ => []
  | .method m => (Method.signatureOf m.name m.parameters).shownNames
  | .ctor k => (Method.signatureOf k.name k.parameters).shownNames

section
variable {owner : String} (howner : OneLine owner) (hstart : isRemark owner.toList = false)
include howner hstart

theorem Member.legible_of_gives {member : Member} {n n' : Nat} {ls : Listing} {x : Unit}
    (h : (member.emit owner).Gives n ls n' x) (hnames : ∀ s ∈ member.shownNames, OneLine s) :
    ls.Legible := by
  rcases hr : member.routine? owner with _ | r
  · obtain ⟨-, rfl | ⟨m, rfl, rfl⟩⟩ := Member.remark_of_gives hr h
    · exact List.forall_mem_nil _
    · have hsymbol := Symbol.oneLine_ofMethod howner hnames
      refine List.forall_mem_cons.mpr ⟨Line.legible_blank, List.forall_mem_singleton.mpr ?_⟩
      exact Line.legible_header (oneLine_append.mpr ⟨hsymbol, by decide⟩)
  · rw [Member.emit_of_routine? hr] at h
    cases member with
    | field => cases hr
    | method m =>
      obtain ⟨body, -, rfl⟩ := Option.map_eq_some_iff.mp hr
      have hname : OneLine m.name := hnames m.name List.mem_cons_self
      exact Routine.legible_of_gives h hname (Symbol.oneLine_ofMethod howner hnames)
        (Symbol.isRemark_ofMethod hstart _)
    | ctor k =>
      obtain rfl := Option.some.inj hr
      have hname : OneLine k.name := hnames k.name List.mem_cons_self
      exact Routine.legible_of_gives h hname (Symbol.oneLine_ofConstructor howner hnames)
        (Symbol.isRemark_ofConstructor _ _)

theorem Member.legibleAll_of_gives : ∀ {members : List Member} {n n' : Nat} {ls : Listing} {x : Unit},
    (Emit.each (Member.emit owner) members).Gives n ls n' x →
    (∀ s ∈ members.flatMap Member.shownNames, OneLine s) → ls.Legible
  | [], n, n', ls, x, h, _ => by
    obtain ⟨rfl, -, -⟩ := Emit.gives_pure.mp h
    exact List.forall_mem_nil _
  | member :: members, n, n', ls, x, h, hnames => by
    obtain ⟨piece, k, _, rest, hm, hrest, rfl⟩ := Emit.gives_bind.mp h
    rw [List.flatMap_cons] at hnames
    obtain ⟨hfirst, hothers⟩ := List.forall_mem_append.mp hnames
    exact (Member.legible_of_gives howner hstart hm hfirst).append
      (Member.legibleAll_of_gives hrest hothers)

end

/-! ### Vtables and tables -/

theorem legible_importedSymbols {ss : List String} (h : ∀ s ∈ ss, OneLine s) :
    (importedSymbols ss).Legible :=
  List.forall_mem_map.mpr fun s hs => Line.legible_imported (h s (mem_foldr_insertSymbol.mp hs))

theorem legible_allocate (words : Nat) : (allocate words).Legible := by
  have hmalloc : OneLine Symbol.malloc := by decide
  refine List.forall_mem_cons.mpr ⟨Line.legible_instr (List.forall_mem_nil _), ?_⟩
  exact List.forall_mem_singleton.mpr (Line.legible_instr (List.forall_mem_singleton.mpr hmalloc))

/-- The names in a slot of a vtable. -/
def VtableEntry.shownNames (e : VtableEntry) : List String := e.label :: e.signature.shownNames

/-- The names in the layout of a class. -/
def ClassLayout.shownNames (c : ClassLayout) : List String :=
  c.name :: c.vtable.flatMap VtableEntry.shownNames

theorem VtableEntry.legible_fill {e : VtableEntry} (h : ∀ s ∈ e.shownNames, OneLine s) (slot : Nat) :
    (e.fill slot).Legible := by
  obtain ⟨hlabel, hsignature⟩ := List.forall_mem_cons.mp h
  have htext := Signature.oneLine_text hsignature
  have hword : ∀ l ∈ e.word.references, OneLine l.text := by
    unfold VtableEntry.word
    split
    · exact List.forall_mem_nil _
    · exact List.forall_mem_singleton.mpr hlabel
  refine List.forall_mem_cons.mpr ⟨Line.legible_comment (by simp +decide [htext]), ?_⟩
  exact List.forall_mem_singleton.mpr (Line.legible_instr hword)

theorem ClassLayout.legible_vtableListing {c : ClassLayout} (h : ∀ s ∈ c.shownNames, OneLine s)
    (typeName : String) : (c.vtableListing typeName).Legible := by
  obtain ⟨hname, hentries⟩ := List.forall_mem_cons.mp h
  have hentry : ∀ e ∈ c.vtable, ∀ s ∈ e.shownNames, OneLine s :=
    fun e he s hs => hentries s (List.mem_flatMap.mpr ⟨e, he, hs⟩)
  have hmangled := Symbol.oneLine_mangle hname
  have hcell : OneLine (Symbol.vtable c.name) := oneLine_append.mpr ⟨by decide, hmangled⟩
  have hinit : OneLine (Symbol.vtableInit c.name) := oneLine_append.mpr ⟨by decide, hmangled⟩
  have himports : ∀ s ∈ Symbol.malloc :: c.foreignLabels typeName, OneLine s := by
    refine List.forall_mem_cons.mpr ⟨by decide, List.forall_mem_map.mpr fun e he => ?_⟩
    exact hentry e (List.mem_of_mem_filter he) _ List.mem_cons_self
  have hdata : Line.Legible (.data (Symbol.vtable c.name) 0) :=
    ⟨oneLine_append.mpr ⟨oneLine_append.mpr ⟨hcell, by decide⟩, by decide⟩,
      by simp [isRemark_cons, List.isPrefixOf, Line.text, Line.isComment, Symbol.vtable]⟩
  have hlabel : Line.Legible (.label (.symbol (Symbol.vtableInit c.name))) :=
    Line.legible_label hinit
      (by simp [isRemark_cons, List.isPrefixOf, Label.text, Symbol.vtableInit])
  have hfill : Listing.Legible (c.vtable.zipIdx.flatMap fun p => p.1.fill p.2) :=
    .flatMap fun p hp => VtableEntry.legible_fill (hentry p.1 (List.fst_mem_of_mem_zipIdx hp)) p.2
  unfold vtableListing
  refine .append (.append (.append (.append (.append (.append (.append (.append ?_ ?_) ?_)
    (legible_importedSymbols himports)) ?_) (legible_allocate _)) ?_) hfill) ?_
  · simp +decide [Listing.Legible, Line.legible_blank, Line.legible_header, Line.legible_segment, hname]
  · exact List.forall_mem_cons.mpr ⟨Line.legible_exported hcell, List.forall_mem_singleton.mpr hdata⟩
  · exact List.forall_mem_singleton.mpr (Line.legible_segment (by decide))
  · exact List.forall_mem_cons.mpr ⟨Line.legible_exported hinit, List.forall_mem_singleton.mpr hlabel⟩
  · refine List.forall_mem_cons.mpr ⟨Line.legible_instr (List.forall_mem_singleton.mpr hcell), ?_⟩
    exact List.forall_mem_singleton.mpr (Line.legible_instr (List.forall_mem_nil _))
  · exact List.forall_mem_singleton.mpr (Line.legible_instr (List.forall_mem_nil _))

theorem legible_fillTable {table : String} (htable : OneLine table) (rows columns : Nat)
    {cells : List (List Word)} (h : ∀ row ∈ cells, ∀ w ∈ row, ∀ l ∈ w.references, OneLine l.text) :
    (fillTable table rows columns cells).Legible := by
  refine .append (.append (legible_allocate rows) ?_) (.flatMap fun p hp => ?_)
  · exact List.forall_mem_singleton.mpr (Line.legible_instr (List.forall_mem_singleton.mpr htable))
  · have hrow := h p.1 (List.fst_mem_of_mem_zipIdx hp)
    refine .append (.append (legible_allocate columns) ?_) ?_
    · refine List.forall_mem_cons.mpr ⟨Line.legible_instr (List.forall_mem_singleton.mpr htable), ?_⟩
      exact List.forall_mem_singleton.mpr (Line.legible_instr (List.forall_mem_nil _))
    · refine List.forall_mem_map.mpr fun q hq => Line.legible_instr ?_
      exact hrow q.1 (List.fst_mem_of_mem_zipIdx hq)

namespace Layout

/-- The names in a layout that code shows. -/
def shownNames (l : Layout) : List String :=
  l.classes.flatMap ClassLayout.shownNames ++ l.selector.flatten.filterMap id

theorem legible_tablesListing {l : Layout} (h : ∀ s ∈ l.shownNames, OneLine s) :
    l.tablesListing.Legible := by
  have hlabels := (List.forall_mem_append.mp h).2
  have himports : ∀ s ∈ Symbol.malloc :: l.selector.flatten.filterMap id, OneLine s :=
    List.forall_mem_cons.mpr ⟨by decide, hlabels⟩
  have hsubtypes : ∀ row ∈ l.subtypes.map fun row => row.map subtypeWord, ∀ w ∈ row,
      ∀ label ∈ w.references, OneLine label.text :=
    List.forall_mem_map.mpr fun _ _ => List.forall_mem_map.mpr fun _ _ => List.forall_mem_nil _
  have hselector : ∀ row ∈ l.selector.map fun row => row.map selectorWord, ∀ w ∈ row,
      ∀ label ∈ w.references, OneLine label.text := by
    refine List.forall_mem_map.mpr fun row hrow => List.forall_mem_map.mpr fun cell hcell => ?_
    cases cell with
    | none => exact List.forall_mem_nil _
    | some label =>
      refine List.forall_mem_singleton.mpr (hlabels label (List.mem_filterMap.mpr ⟨_, ?_, rfl⟩))
      exact List.mem_flatten.mpr ⟨row, hrow, hcell⟩
  have hcells : Listing.Legible (exportedCell Symbol.subtypeTable ++ exportedCell Symbol.selectorTable) := by
    simp only [exportedCell, Listing.Legible, Line.Legible]
    decide
  unfold tablesListing
  rw [List.append_assoc [_, _]]
  refine .append (.append (.append (.append (.append (.append (.append (.append ?_ hcells) ?_)
    (legible_importedSymbols himports)) ?_) (legible_fillTable (by decide) _ _ hsubtypes)) ?_)
    (legible_fillTable (by decide) _ _ hselector)) ?_
  · simp +decide [Listing.Legible, Line.legible_header, Line.legible_segment]
  · simp +decide [Listing.Legible, Line.legible_blank, Line.legible_segment]
  · refine List.forall_mem_cons.mpr ⟨Line.legible_exported (by decide), ?_⟩
    refine List.forall_mem_cons.mpr ⟨Line.legible_label (by decide) (by decide), ?_⟩
    exact List.forall_mem_singleton.mpr (Line.legible_comment (by simp +decide))
  · exact List.forall_mem_singleton.mpr (Line.legible_comment (by simp +decide))
  · exact List.forall_mem_singleton.mpr (Line.legible_instr (List.forall_mem_nil _))

end Layout

namespace CompilationUnit

/-- The names in a unit that its code shows. -/
def shownNames (u : CompilationUnit) : List String :=
  u.qualifiedName :: match u.decl with
    | .ofClass c => c.members.flatMap Member.shownNames
    | .ofInterface _ => []

theorem legible_of_gives {l : Layout} {u : CompilationUnit} {n n' : Nat} {ls : Listing} {x : Unit}
    (h : (u.emit l).Gives n ls n' x) (hl : ∀ s ∈ l.shownNames, OneLine s)
    (hu : ∀ s ∈ u.shownNames, OneLine s) (hstart : isRemark u.qualifiedName.toList = false) :
    ls.Legible := by
  obtain ⟨hname, hmembers⟩ := List.forall_mem_cons.mp hu
  have hhead : Listing.Legible [.header u.qualifiedName, .segment ".text"] :=
    List.forall_mem_cons.mpr ⟨Line.legible_header hname,
      List.forall_mem_singleton.mpr (Line.legible_segment (by decide))⟩
  rcases code_of_gives h with ⟨i, -, rfl⟩ | ⟨c, cl, code, k, hd, hcl, hcode, rfl⟩
  · exact hhead.append (List.forall_mem_singleton.mpr (Line.legible_header (by decide)))
  · rw [hd] at hmembers
    have hclass : ∀ s ∈ cl.shownNames, OneLine s := by
      intro s hs
      refine (List.forall_mem_append.mp hl).1 s (List.mem_flatMap.mpr ⟨cl, ?_, hs⟩)
      exact List.mem_of_find?_eq_some hcl
    exact hhead.append ((Member.legibleAll_of_gives hname hstart hcode hmembers).append
      (cl.legible_vtableListing hclass u.qualifiedName))

end CompilationUnit

/-- An emission without comments fails like that with comments, or is that with
comments without its remarks. -/
theorem Emission.withoutRemarks_text {e : Emission α} (h : ∀ a, e.result = .ok a → e.lines.Legible) :
    e.text false = (e.text true).map withoutRemarks := by
  unfold Emission.text
  rcases hresult : e.result with err | a
  · rfl
  · exact congrArg Except.ok (Listing.withoutRemarks_text (h a hresult)).symm

/-- Whether comments are written changes nothing but the comments: the code of a
unit and of the tables fails alike in both cases, or the text without comments is
the text with them less the lines that look like one. No name may have a line
break, and the name of the type may not look like a comment. -/
theorem Layout.withoutRemarks_render (l : Layout) (hl : ∀ s ∈ l.shownNames, OneLine s) :
    (l.emitTables 0).text false = ((l.emitTables 0).text true).map withoutRemarks ∧
    ∀ u : CompilationUnit, (∀ s ∈ u.shownNames, OneLine s) → isRemark u.qualifiedName.toList = false →
      u.render l false = (u.render l true).map withoutRemarks := by
  refine ⟨?_, fun u hu hstart => ?_⟩
  · exact Emission.withoutRemarks_text fun _ _ => legible_tablesListing hl
  · refine Emission.withoutRemarks_text fun a ha => ?_
    have hgives : (u.emit l).Gives 0 (u.emit l 0).lines (u.emit l 0).nextLabel a := by
      rw [Emit.Gives, ← ha]
    exact u.legible_of_gives hgives hl hu hstart

/-- A class of the package `p` with loops in a constructor and in a method, and a
method without a body. -/
def remarkedClass : CompilationUnit :=
  let body : Block := ⟨[.whileLoop (.ofBool true) (.ret none .zero) .zero], .zero⟩
  (CompilationUnit.of (.ofClass ⟨[.isAbstract], "A", none, [],
    [.ctor ⟨[], "A", [.of (.named "int") "n"], body, .zero⟩, .method ⟨[], none, "f", [], some body, .zero⟩,
      .method ⟨[.isAbstract], none, "g", [], none, .zero⟩], .zero⟩)).withPackage "p"

theorem remarkedClass_withoutRemarks : ∃ l,
    Layout.ofGraph (Graph.empty.declareAll [remarkedClass]).1 [remarkedClass] = .ok l ∧
    (∀ s ∈ l.shownNames, OneLine s) ∧ (∀ s ∈ remarkedClass.shownNames, OneLine s) ∧
    isRemark remarkedClass.qualifiedName.toList = false ∧
    ∃ text, remarkedClass.render l true = .ok text ∧
      remarkedClass.render l false = .ok (withoutRemarks text) ∧
      (l.emitTables 0).text false = .ok (withoutRemarks (l.tablesListing.text true)) := by
  obtain ⟨l, hlayout⟩ : ∃ l,
      Layout.ofGraph (Graph.empty.declareAll [remarkedClass]).1 [remarkedClass] = .ok l := ⟨_, rfl⟩
  have hl : ∀ s ∈ l.shownNames, OneLine s := by
    cases hlayout
    decide +kernel
  have hnames : ∀ s ∈ remarkedClass.shownNames, OneLine s := by decide +kernel
  have hstart : isRemark remarkedClass.qualifiedName.toList = false := by decide +kernel
  have hresult : (remarkedClass.emit l 0).result = .ok () := by
    cases hlayout
    decide +kernel
  obtain ⟨htables, hunit⟩ := l.withoutRemarks_render hl
  have hrender : remarkedClass.render l true = .ok ((remarkedClass.emit l 0).lines.text true) := by
    rw [CompilationUnit.render, Emission.text, hresult]
  refine ⟨l, hlayout, hl, hnames, hstart, _, hrender, ?_, htables⟩
  rw [hunit remarkedClass hnames hstart, hrender]
  rfl

/-- A class whose name looks like a comment after four spaces. -/
def remarkNamed : CompilationUnit :=
  .of (.ofClass ⟨[], "    ; A", none, [], [.method ⟨[], none, "m", [], some ⟨[], .zero⟩, .zero⟩], .zero⟩)

/-- No name starts with a semicolon or has a line break, and yet the label of the
method looks like a comment. -/
theorem remarkNamed_label_lost : ∃ l,
    Layout.ofGraph (Graph.empty.declareAll [remarkNamed]).1 [remarkNamed] = .ok l ∧
    (∀ s ∈ remarkNamed.shownNames ++ l.shownNames, OneLine s ∧ s.toList.head? ≠ some ';') ∧
    ∃ text plain, remarkNamed.render l true = .ok text ∧ remarkNamed.render l false = .ok plain ∧
      withoutRemarks text ≠ plain := by
  obtain ⟨l, hlayout⟩ : ∃ l, Layout.ofGraph (Graph.empty.declareAll [remarkNamed]).1 [remarkNamed] = .ok l :=
    ⟨_, rfl⟩
  obtain ⟨ls, n, hgives⟩ : ∃ ls n, (remarkNamed.emit l).Gives 0 ls n () := by
    cases hlayout
    exact ⟨_, _, rfl⟩
  have hrender : ∀ comments, remarkNamed.render l comments = .ok (ls.text comments) := by
    intro comments
    rw [CompilationUnit.render, hgives]
    rfl
  have hnames : ∀ s ∈ remarkNamed.shownNames ++ l.shownNames, OneLine s ∧ s.toList.head? ≠ some ';' := by
    cases hlayout
    decide +kernel
  have hlines : ∀ s ∈ ls.map (Line.text Instr.text), OneLine s := by
    cases hlayout
    cases hgives
    decide +kernel
  have hcount : ((ls.map (Line.text Instr.text)).filter fun s => !isRemark s.toList).length ≠
      ((ls.filter fun line => !line.isComment).map (Line.text Instr.text)).length := by
    cases hlayout
    cases hgives
    decide +kernel
  refine ⟨l, hlayout, hnames, _, _, hrender true, hrender false, fun hsame => hcount ?_⟩
  let shown := (ls.filter fun line => !line.isComment).map (Line.text Instr.text)
  have hshown : ∀ s ∈ shown, OneLine s := by
    refine List.forall_mem_map.mpr fun line hline => hlines _ ?_
    exact List.mem_map_of_mem (List.mem_of_mem_filter hline)
  have htext : ls.text true = lines (ls.map (Line.text Instr.text)) := by
    simpa using Listing.text_eq_lines true ls
  have hplain : ls.text false = lines shown := by
    simpa using Listing.text_eq_lines false ls
  rw [htext, hplain, withoutRemarks_lines hlines] at hsame
  have hparts := congrArg (fun text => (Path.split '\n' text.toList).length) hsame
  rw [split_lines fun s hs => hlines s (List.mem_of_mem_filter hs), split_lines hshown] at hparts
  have hlength : ((ls.map (Line.text Instr.text)).filter fun s => !isRemark s.toList).length =
      shown.length := by simpa using hparts
  exact hlength

end ClassCompiler
