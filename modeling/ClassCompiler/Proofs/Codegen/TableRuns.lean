import ClassCompiler.Codegen.Tables
import ClassCompiler.Proofs.Codegen.Allocation

/-!
# Running the code that builds tables

A table is a region of pointers, one for each row, and each row is a region of
its own. The code asks for the rows one by one, and after each call for memory
only `eax` is known: the address of the table is read again from its cell. The
cell stays what it is, since it was in use before and a new region shares no
byte with it; so do the rows that are filled already.

Key definitions: `Machine.KeepsIn`, `Machine.HoldsRow`, `Machine.HoldsTable`.

Key theorems: `Program.Ensures.fillRegion`, `Program.Ensures.fillRow` and
`Program.Ensures.fillRows`, `Program.Ensures.fillTable`.
-/

namespace ClassCompiler

/-- The word that a constant of a table is in memory. -/
def Word.value (symbols : String → MachineWord) : Word → MachineWord
  | .number n => BitVec.ofNat 32 n
  | .symbol name => symbols name

namespace Machine

variable {symbols : String → MachineWord} {m m' : Machine}

theorem exec_storeWord (a : Address) (w : Word) : m.exec symbols (.storeWord a w) =
    some (m.setMem (m.address symbols a) (w.value symbols)) := by
  cases w <;> rfl

/-- All words of memory in use are as they were, but for some. -/
def KeepsIn (heap : List Region) (except : MachineWord → Prop) (m m' : Machine) : Prop :=
  ∀ x, Region.InUse heap x → ¬ except x → m'.memory x = m.memory x

/-- A region has room for a row of words, and starts with them. -/
structure HoldsRow (symbols : String → MachineWord) (m : Machine) (b : Region) (row : List Word) :
    Prop where
  room : wordSize * row.length ≤ b.size
  words : ∀ (j : Nat) (w : Word), row[j]? = some w → m.memory (b.word j) = w.value symbols

/-- From its word number `k` on a region points to regions with these rows. -/
def HoldsRows (symbols : String → MachineWord) (m : Machine) (heap : List Region) (tb : Region)
    (k : Nat) (rows : List (List Word)) : Prop :=
  ∀ (i : Nat) (row : List Word), rows[i]? = some row →
    ∃ b ∈ heap, m.HoldsRow symbols b row ∧ m.memory (tb.word (k + i)) = b.base

/-- The cell of a table points to a region, and the region to the rows. -/
def HoldsTable (symbols : String → MachineWord) (m : Machine) (heap : List Region) (table : String)
    (rows : List (List Word)) : Prop :=
  ∃ tb ∈ heap, m.memory (symbols table) = tb.base ∧ wordSize * rows.length ≤ tb.size ∧
    m.HoldsRows symbols heap tb 0 rows

variable {heap : List Region} {except : MachineWord → Prop} {b tb : Region} {row : List Word}
  {rows : List (List Word)}

theorem HoldsRow.has_word (h : m.HoldsRow symbols b row) {j : Nat} (hj : j < row.length) :
    b.Has (b.word j) :=
  Region.has_word (Region.room_of_lt h.room hj)

/-- A row stays in a region whose words all stay. -/
theorem HoldsRow.kept (h : m.HoldsRow symbols b row) (hb : b ∈ heap)
    (hkept : m.KeepsIn heap except m') (hout : ∀ x, b.Has x → ¬ except x) :
    m'.HoldsRow symbols b row := by
  refine ⟨h.room, fun j w hw => ?_⟩
  have hhas := h.has_word (List.getElem?_eq_some_iff.mp hw).1
  rw [hkept _ ⟨b, hb, hhas⟩ (hout _ hhas), h.words j w hw]

/-- A table stays if no word but the cell of another one changes. -/
theorem HoldsTable.kept {new old : List Region} {table other : String}
    (h : m.HoldsTable symbols new table rows) (hfresh : Region.Apart new old)
    (htable : Region.InUse old (symbols table)) (hother : Region.InUse old (symbols other))
    (hne : symbols table ≠ symbols other) (hkept : m.KeepsIn (new ++ old) (· = symbols other) m') :
    m'.HoldsTable symbols new table rows := by
  obtain ⟨tb, htb, hpointer, hroom, hrows⟩ := h
  obtain ⟨cb, hcb, hcell⟩ := hother
  have hout : ∀ b ∈ new, ∀ x, b.Has x → ¬ x = symbols other :=
    fun b hb x hx => (hfresh b hb cb hcb).ne hx hcell
  refine ⟨tb, htb, ?_, hroom, fun i row hi => ?_⟩
  · rw [hkept _ (htable.mono (List.subset_append_right new old)) hne, hpointer]
  · obtain ⟨b, hb, hrow, hentry⟩ := hrows i row hi
    refine ⟨b, hb, hrow.kept (List.mem_append_left old hb) hkept (hout b hb), ?_⟩
    have hhas : tb.Has (tb.word (0 + i)) := by
      rw [Nat.zero_add]
      exact Region.has_word (Region.room_of_lt hroom (List.getElem?_eq_some_iff.mp hi).1)
    rw [hkept _ ⟨tb, List.mem_append_left old htb, hhas⟩ (hout tb htb _ hhas), hentry]

end Machine

namespace Program.Ensures

variable {p : Program} {alloc : Allocator} {cells : List String} {sizes : List Nat}
  {old heap : List Region}
  {q : Process → Prop} {m : Machine} {rest : Listing}

/-- Memory for some words. -/
theorem allocate {words : Nat} (hwords : wordSize * words < 0x100000000)
    (hasked : wordSize * words ∈ sizes)
    (h : ∀ m' b, b.size = wordSize * words → m'.registers .eax = b.base →
      (∀ b' ∈ heap, b.Disjoint b') → m.KeepsIn heap (fun _ => False) m' →
      p.Ensures alloc cells sizes old q ⟨⟨rest, m'⟩, b :: heap⟩) :
    p.Ensures alloc cells sizes old q ⟨⟨ClassCompiler.allocate words ++ rest, m⟩, heap⟩ := by
  let m₁ := m.setReg .eax (BitVec.ofInt 32 (wordSize * words : Nat))
  have heax : (m₁.registers .eax).toNat = wordSize * words := by
    simp only [m₁, Machine.registers_setReg, if_true, BitVec.ofInt_natCast, BitVec.toNat_ofNat]
    exact Nat.mod_eq_of_lt hwords
  have hexec : m.exec p.symbols (.mov .eax (.imm (wordSize * words : Nat))) = some m₁ := rfl
  refine .instr trivial hexec (.malloc (heax ▸ hasked) fun m' b halloc => ?_)
  exact h m' b (halloc.size.trans heax) halloc.address halloc.fresh fun x hx _ => halloc.kept x hx

/-- Constants that are stored one after another in a region. -/
theorem fillWords {α : Type} (r : Register) (before : α × Nat → Listing) (word : α → Word)
    (hbefore : ∀ p, ∀ line ∈ before p, ∀ i, line ≠ .instr i) {new : List Region} {b : Region}
    (hb : b ∈ new) (xs : List α) (k : Nat) {m : Machine} (hr : m.registers r = b.base)
    (hsize : wordSize * (k + xs.length) ≤ b.size) :
    p.Ensures alloc cells sizes old (fun s => s.code = rest ∧ s.heap = new ++ old ∧
        (∀ (j : Nat) (x : α), xs[j]? = some x →
          s.machine.memory (b.word (k + j)) = (word x).value p.symbols) ∧
        ∀ a, (∀ j, k ≤ j → j < k + xs.length → a ≠ b.word j) → s.machine.memory a = m.memory a)
      ⟨⟨((xs.zipIdx k).flatMap fun x => before x ++
        [.instr (.storeWord (.offset r (wordSize * x.2)) (word x.1))]) ++ rest, m⟩,
        new ++ old⟩ := by
  induction xs generalizing k m with
  | nil => exact .done ⟨rfl, rfl, by simp, fun _ _ => rfl⟩
  | cons x xs ih =>
    have hroom : ∀ {j}, j < k + (xs.length + 1) → wordSize * (j + 1) ≤ b.size :=
      Region.room_of_lt hsize
    have hlater : wordSize * (k + 1 + xs.length) ≤ b.size := by
      rw [Nat.add_right_comm]
      exact hsize
    have hexec : m.exec p.symbols (.storeWord (.offset r (wordSize * k)) (word x)) =
        some (m.setMem (b.word k) ((word x).value p.symbols)) := by
      rw [Machine.exec_storeWord, Machine.address, hr]
      rfl
    have hr' : (m.setMem (b.word k) ((word x).value p.symbols)).registers r = b.base := hr
    rw [List.zipIdx_cons, List.flatMap_cons, List.append_assoc, List.append_assoc]
    refine .passed _ (hbefore (x, k)) (.instr ⟨new, b, rfl, hb, hr, hroom (by omega)⟩ hexec ?_)
    refine (ih (k + 1) hr' hlater).bind ?_
    rintro s ⟨hcode, hheap, hwords, hkept⟩
    refine .done ⟨hcode, hheap, fun j y hy => ?_, fun a ha => ?_⟩
    · cases j with
      | zero =>
        obtain rfl := Option.some.inj hy
        rw [Nat.add_zero, hkept (b.word k) fun j hj hlt he => ?_]
        · exact if_pos rfl
        · have hsame := Region.word_inj (hroom (by omega)) (hroom (by omega)) he
          omega
      | succ j =>
        rw [Nat.add_comm j 1, ← Nat.add_assoc]
        exact hwords j y hy
    · rw [List.length_cons] at ha
      rw [hkept a fun j hj hlt => ha j (by omega) (by omega)]
      exact if_neg (ha k (Nat.le_refl k) (by omega))

/-- All words of a row, in a region that was not in use before. -/
theorem fillRegion {α : Type} (new : List Region) (r : Register) (before : α × Nat → Listing)
    (word : α → Word) (hbefore : ∀ p, ∀ line ∈ before p, ∀ i, line ≠ .instr i) {b : Region}
    (hfresh : ∀ b' ∈ new ++ old, b.Disjoint b') (xs : List α) (hr : m.registers r = b.base)
    (hroom : wordSize * xs.length ≤ b.size) :
    p.Ensures alloc cells sizes old (fun s => s.code = rest ∧ s.heap = b :: new ++ old ∧
        s.machine.HoldsRow p.symbols b (xs.map word) ∧
        m.KeepsIn (new ++ old) (fun _ => False) s.machine)
      ⟨⟨(xs.zipIdx.flatMap fun x => before x ++
        [.instr (.storeWord (.offset r (wordSize * x.2)) (word x.1))]) ++ rest, m⟩,
        b :: new ++ old⟩ := by
  refine (fillWords r before word hbefore (List.mem_cons_self (l := new)) xs 0 hr
    (by rw [Nat.zero_add]; exact hroom)).bind ?_
  rintro s ⟨hcode, hheap, hwords, hkept⟩
  have hrow : s.machine.HoldsRow p.symbols b (xs.map word) := by
    refine ⟨by rwa [List.length_map], fun j w hw => ?_⟩
    rw [List.getElem?_map] at hw
    obtain ⟨x, hx, rfl⟩ := Option.map_eq_some_iff.mp hw
    rw [← hwords j x hx, Nat.zero_add]
  refine .done ⟨hcode, hheap, hrow, ?_⟩
  rintro x ⟨b', hb', hx⟩ -
  refine hkept x fun j _ hj => Ne.symm ((hfresh b' hb').ne (hrow.has_word ?_) hx)
  rw [List.length_map]
  omega

/-- One row of a table: it is entered in the table, and its cells are filled. -/
theorem fillRow {table : String} {columns i : Nat} {row : List Word} {new : List Region}
    {tb : Region} (hcolumns : wordSize * columns < 0x100000000)
    (hasked : wordSize * columns ∈ sizes) (hrow : row.length ≤ columns)
    (htable : Region.InUse old (p.symbols table)) (hpointer : m.memory (p.symbols table) = tb.base)
    (htb : tb ∈ new) (hi : wordSize * (i + 1) ≤ tb.size) :
    p.Ensures alloc cells sizes old (fun s => s.code = rest ∧ ∃ b, s.heap = b :: new ++ old ∧
        (∀ b' ∈ new ++ old, b.Disjoint b') ∧ s.machine.HoldsRow p.symbols b row ∧
        s.machine.memory (tb.word i) = b.base ∧ m.KeepsIn (new ++ old) (· = tb.word i) s.machine)
      ⟨⟨ClassCompiler.fillRow table columns i row ++ rest, m⟩, new ++ old⟩ := by
  rw [ClassCompiler.fillRow, List.append_assoc, List.append_assoc, List.map_eq_flatMap]
  refine .allocate hcolumns hasked fun m₁ b hsize hbase hfresh hkept => ?_
  -- the machine that has the address of the table again, and the one that has the row entered
  have hpointer₁ : m₁.memory (p.symbols table) = tb.base :=
    (hkept _ (htable.mono (List.subset_append_right new old)) not_false).trans hpointer
  let m₂ := m₁.setReg .ebx tb.base
  let m₃ := m₂.setMem (tb.word i) b.base
  have hload : m₁.exec p.symbols (.mov .ebx (.mem (.symbol table))) = some m₂ :=
    congrArg (fun w => some (m₁.setReg .ebx w)) hpointer₁
  have henter : m₂.exec p.symbols (.store (.offset .ebx (wordSize * i)) .eax) = some m₃ :=
    congrArg (fun w => some (m₂.setMem (tb.word i) w)) hbase
  have hbase₃ : m₃.registers .eax = b.base := hbase
  have hroom : wordSize * row.length ≤ b.size := by
    rw [hsize]
    exact Nat.mul_le_mul_left _ hrow
  refine .instr trivial hload
    (.instr ⟨b :: new, tb, rfl, List.mem_cons_of_mem _ htb, rfl, hi⟩ henter ?_)
  refine (fillRegion new .eax (fun _ => []) id (by simp) hfresh row hbase₃ hroom).bind ?_
  rintro s ⟨hcode, hheap, hfilled, hrest⟩
  rw [List.map_id] at hfilled
  refine .done ⟨hcode, b, hheap, hfresh, hfilled, ?_, ?_⟩
  · rw [hrest _ ⟨tb, List.mem_append_left _ htb, Region.has_word hi⟩ not_false]
    exact if_pos rfl
  · intro x hx hne
    rw [hrest x hx not_false]
    exact (if_neg hne).trans (hkept x hx not_false)

/-- The rows of a table from row number `k` on. -/
theorem fillRows {table : String} {columns : Nat} (hcolumns : wordSize * columns < 0x100000000)
    (hasked : wordSize * columns ∈ sizes)
    (htable : Region.InUse old (p.symbols table)) {tb : Region} (hfresh : ∀ b ∈ old, tb.Disjoint b)
    (rows : List (List Word)) {k : Nat} (hrows : ∀ row ∈ rows, row.length ≤ columns)
    {new : List Region} (htb : tb ∈ new) {m : Machine}
    (hpointer : m.memory (p.symbols table) = tb.base)
    (hsize : wordSize * (k + rows.length) ≤ tb.size) :
    p.Ensures alloc cells sizes old (fun s => s.code = rest ∧ ∃ added, s.heap = added ++ (new ++ old) ∧
        Region.Apart added (new ++ old) ∧
        s.machine.HoldsRows p.symbols added tb k rows ∧
        m.KeepsIn (new ++ old) (fun x => ∃ i, k ≤ i ∧ i < k + rows.length ∧ x = tb.word i)
          s.machine)
      ⟨⟨((rows.zipIdx k).flatMap fun x => ClassCompiler.fillRow table columns x.2 x.1) ++ rest, m⟩,
        new ++ old⟩ := by
  induction rows generalizing k m new with
  | nil =>
    exact .done ⟨rfl, [], rfl, List.forall_mem_nil _, by simp [Machine.HoldsRows], fun _ _ _ => rfl⟩
  | cons row rows ih =>
    obtain ⟨hrow, hrows⟩ := List.forall_mem_cons.mp hrows
    have hroom : ∀ {j}, j < k + (rows.length + 1) → wordSize * (j + 1) ≤ tb.size :=
      Region.room_of_lt hsize
    have hlater : wordSize * (k + 1 + rows.length) ≤ tb.size := by
      rw [Nat.add_right_comm]
      exact hsize
    have hword : tb.Has (tb.word k) := Region.has_word (hroom (by omega))
    rw [List.zipIdx_cons, List.flatMap_cons, List.append_assoc]
    refine (fillRow hcolumns hasked hrow htable hpointer htb (hroom (by omega))).bind ?_
    rintro ⟨⟨_, m₁⟩, _⟩ ⟨rfl, b, rfl, hnew, hholds, hat, hkept⟩
    have hpointer₁ : m₁.memory (p.symbols table) = tb.base := by
      obtain ⟨cb, hcb, hcell⟩ := htable
      refine (hkept _ ⟨cb, List.mem_append_right _ hcb, hcell⟩ ?_).trans hpointer
      exact Ne.symm ((hfresh cb hcb).ne hword hcell)
    refine (ih hrows (List.mem_cons_of_mem b htb) hpointer₁ hlater).bind ?_
    rintro s ⟨hcode, added, hheap, hadded, hrest, hkept'⟩
    refine .done ⟨hcode, added ++ [b], by simpa using hheap, hadded.concat hnew, ?_, ?_⟩
    · intro i row' hi
      cases i with
      | zero =>
        -- neither the first row nor its entry is where the later entries are
        obtain rfl := Option.some.inj hi
        refine ⟨b, by simp, hholds.kept List.mem_cons_self hkept' ?_, ?_⟩
        · rintro x hx ⟨j, -, hj, rfl⟩
          have hhas : tb.Has (tb.word j) := Region.has_word (hroom (by omega))
          exact (hnew tb (List.mem_append_left _ htb)).ne hx hhas rfl
        · rw [Nat.add_zero, hkept' _ ⟨tb, by simp [htb], hword⟩, hat]
          rintro ⟨j, hj, hlt, he⟩
          have hsame := Region.word_inj (hroom (by omega)) (hroom (by omega)) he
          omega
      | succ i =>
        obtain ⟨b', hb', hrow', hat'⟩ := hrest i row' hi
        refine ⟨b', List.mem_append_left _ hb', hrow', ?_⟩
        rw [Nat.add_comm i 1, ← Nat.add_assoc]
        exact hat'
    · intro x hx hne
      have hx' : Region.InUse (b :: new ++ old) x := hx.mono (List.subset_cons_self b _)
      rw [hkept' x hx' ?_, hkept x hx ?_]
      · rintro rfl
        exact hne ⟨k, Nat.le_refl k, by simp, rfl⟩
      · rintro ⟨j, hj, hlt, rfl⟩
        exact hne ⟨j, by omega, by rw [List.length_cons]; omega, rfl⟩

/-- A whole table, whose rows have their own regions. -/
theorem fillTable {table : String} {rows columns : Nat} {cs : List (List Word)} (new : List Region)
    (hmine : table ∈ cells) (hrows : wordSize * rows < 0x100000000)
    (hcolumns : wordSize * columns < 0x100000000)
    (hasked : wordSize * rows ∈ sizes ∧ wordSize * columns ∈ sizes) (hlength : cs.length ≤ rows)
    (hwidth : ∀ row ∈ cs, row.length ≤ columns) (htable : Region.InUse old (p.symbols table)) :
    p.Ensures alloc cells sizes old (fun s => s.code = rest ∧ ∃ added, s.heap = added ++ new ++ old ∧
        Region.Apart added (new ++ old) ∧
        s.machine.HoldsTable p.symbols added table cs ∧
        m.KeepsIn (new ++ old) (· = p.symbols table) s.machine)
      ⟨⟨ClassCompiler.fillTable table rows columns cs ++ rest, m⟩, new ++ old⟩ := by
  rw [ClassCompiler.fillTable, List.append_assoc, List.append_assoc]
  refine .allocate hrows hasked.1 fun m₁ tb hsize hbase hfresh hkept => ?_
  let m₂ := m₁.setMem (p.symbols table) tb.base
  have hexec : m₁.exec p.symbols (.store (.symbol table) .eax) = some m₂ :=
    congrArg (fun w => some (m₁.setMem (p.symbols table) w)) hbase
  have hpointer : m₂.memory (p.symbols table) = tb.base := if_pos rfl
  have hroom : wordSize * (0 + cs.length) ≤ tb.size := by
    rw [hsize, Nat.zero_add]
    exact Nat.mul_le_mul_left _ hlength
  have hold : ∀ b ∈ old, tb.Disjoint b := fun b hb => hfresh b (List.mem_append_right _ hb)
  -- what was in use before is not in the table
  have hapart : ∀ x, Region.InUse (new ++ old) x →
      ¬ ∃ i, 0 ≤ i ∧ i < 0 + cs.length ∧ x = tb.word i := by
    rintro x ⟨b, hb, hx⟩ ⟨i, -, hi, rfl⟩
    have hhas : tb.Has (tb.word i) := Region.has_word (Region.room_of_lt hroom hi)
    exact (hfresh b hb).ne hhas hx rfl
  have hmore : ∀ x, Region.InUse (new ++ old) x → Region.InUse (tb :: new ++ old) x :=
    fun x hx => hx.mono (List.subset_cons_self tb _)
  have hcell : Region.InUse (new ++ old) (p.symbols table) :=
    htable.mono (List.subset_append_right new old)
  refine .instr hmine hexec ?_
  refine (fillRows hcolumns hasked.2 htable hold cs hwidth List.mem_cons_self hpointer hroom).bind ?_
  rintro s ⟨hcode, added, hheap, hadded, hholds, hkept'⟩
  refine .done ⟨hcode, added ++ [tb], by simpa using hheap, hadded.concat hfresh,
    ⟨tb, by simp, ?_, ?_, ?_⟩, ?_⟩
  · rw [hkept' _ (hmore _ hcell) (hapart _ hcell), hpointer]
  · rwa [Nat.zero_add] at hroom
  · intro i row hi
    obtain ⟨b, hb, hrow⟩ := hholds i row hi
    exact ⟨b, List.mem_append_left _ hb, hrow⟩
  · intro x hx hne
    rw [hkept' x (hmore x hx) (hapart x hx)]
    exact (if_neg hne).trans (hkept x hx not_false)

end Program.Ensures
end ClassCompiler
