import ClassCompiler.Proofs.Codegen.Bindings
import ClassCompiler.Proofs.Codegen.Meaning
import Mathlib.Data.List.Forall2

/-!
# Activations

The words of the stack that one call of a routine uses: the argument words, the
return address and the saved frame pointer at the top, then the local
variables, then the operands that wait while the rest of an expression is
computed. No two of these words are one, as long as the stack has room for
them.

Variables and frame correspond binding by binding, hidden ones included, since
a block gives back the outer variable that it hid.

Key definitions: `Cell`, `Activation`, `Activation.Fits`, `Activation.Holds`,
`Activation.Keeps`.

Key theorems: `Activation.address_inj`, `Activation.Holds.read`,
`Activation.Holds.assign`, `Activation.Holds.declare`, `Activation.Holds.leave`.
-/

namespace ClassCompiler

/-- A word of an activation. -/
inductive Cell where
  | slot (s : Slot)
  | operand (index : Nat)
  | savedBase
  | returnAddress
deriving DecidableEq

/-- The words that code leaves alone while `depth` operands wait. -/
def Cell.IsSaved (depth : Nat) : Cell → Prop
  | .slot _ => False
  | .operand j => j < depth
  | .savedBase | .returnAddress => True

structure Activation where
  base : MachineWord
  locals : Nat
  arguments : Nat
  operands : Nat

namespace Activation

variable (a : Activation)

def address : Cell → MachineWord
  | .slot s => s.address a.base
  | .operand j => a.base - BitVec.ofNat 32 (wordSize * (a.locals + j + 1))
  | .savedBase => a.base
  | .returnAddress => a.base + BitVec.ofNat 32 wordSize

/-- Where a word is, relative to the frame pointer. -/
def offset : Cell → Int
  | .slot (.localVar k) => -(wordSize * (k + 1))
  | .slot (.argument i) => 2 * wordSize + wordSize * i
  | .operand j => -(wordSize * (a.locals + j + 1))
  | .savedBase => 0
  | .returnAddress => wordSize

/-- The words that an activation has. -/
def Has : Cell → Prop
  | .slot (.localVar k) => k < a.locals
  | .slot (.argument i) => i < a.arguments
  | .operand j => j < a.operands
  | .savedBase | .returnAddress => True

/-- There is room for the whole activation between the ends of memory. -/
structure Fits : Prop where
  below : wordSize * (a.locals + a.operands) ≤ a.base.toNat
  above : a.base.toNat + 2 * wordSize + wordSize * a.arguments ≤ 0x100000000

variable {a}

theorem toNat_address (ha : a.Fits) {p : Cell} (hp : a.Has p) :
    ((a.address p).toNat : Int) = a.base.toNat + a.offset p := by
  have hb := ha.below
  have ht := ha.above
  simp only [wordSize] at hb ht
  rcases p with (i | k) | j | _ | _
  · simp only [Has] at hp
    simp only [address, Slot.address, offset, wordSize, BitVec.toNat_add, BitVec.toNat_ofNat]
    omega
  · simp only [Has] at hp
    simp only [address, Slot.address, offset, wordSize, BitVec.toNat_sub, BitVec.toNat_ofNat]
    omega
  · simp only [Has] at hp
    simp only [address, offset, wordSize, BitVec.toNat_sub, BitVec.toNat_ofNat]
    omega
  · simp [address, offset]
  · simp only [address, offset, wordSize, BitVec.toNat_add, BitVec.toNat_ofNat]
    omega

/-- Two words of an activation are at different addresses. -/
theorem address_inj (ha : a.Fits) {p q : Cell} (hp : a.Has p) (hq : a.Has q)
    (h : a.address p = a.address q) : p = q := by
  have ho : a.offset p = a.offset q := by
    have h₁ := toNat_address ha hp
    have h₂ := toNat_address ha hq
    rw [h] at h₁
    omega
  rcases p with (i | k) | j | _ | _ <;> rcases q with (i' | k') | j' | _ | _ <;>
    simp only [Has, offset, wordSize, Cell.slot.injEq, Slot.argument.injEq, Slot.localVar.injEq,
      Cell.operand.injEq, reduceCtorEq] at hp hq ho ⊢ <;> omega

/-- The word of a variable holds its value, if it has one. -/
def Stores (a : Activation) (memory : MachineWord → MachineWord) (v : String × Option Value)
    (b : String × Slot) : Prop :=
  v.1 = b.1 ∧ ∀ w, v.2 = some w → memory (b.2.address a.base) = w.word

/-- A machine in the body of a routine, with `depth` operands waiting, holds
the variables where the frame says. -/
structure Holds (a : Activation) (f : Frame) (depth : Nat) (vars : Variables) (m : Machine) :
    Prop where
  base : m.registers .ebp = a.base
  top : m.registers .esp = a.base - BitVec.ofNat 32 (wordSize * (a.locals + depth))
  stores : List.Forall₂ (a.Stores m.memory) vars f.bindings

/-- A machine has kept the words that it must leave alone. -/
def Keeps (a : Activation) (depth : Nat) (m m' : Machine) : Prop :=
  ∀ p : Cell, p.IsSaved depth → a.Has p → m'.memory (a.address p) = m.memory (a.address p)

/-- All words of a frame are in the activation. -/
structure Covers (a : Activation) (f : Frame) : Prop where
  placed : f.Placed a.arguments
  locals : f.nextLocal ≤ a.locals

theorem Covers.has {f : Frame} (h : a.Covers f) {name : String} {s : Slot}
    (hb : (name, s) ∈ f.bindings) : a.Has (.slot s) := by
  cases s with
  | argument i => exact h.placed.argument hb
  | localVar k => exact Nat.lt_of_lt_of_le (h.placed.localVar hb) h.locals

theorem Keeps.refl (depth : Nat) (m : Machine) : a.Keeps depth m m := fun _ _ _ => rfl

theorem Keeps.trans {depth : Nat} {m m' m'' : Machine} (h : a.Keeps depth m m')
    (h' : a.Keeps depth m' m'') : a.Keeps depth m m'' :=
  fun p hs hp => (h' p hs hp).trans (h p hs hp)

/-- Code that keeps more words keeps fewer. -/
theorem Keeps.mono {depth depth' : Nat} {m m' : Machine} (h : a.Keeps depth' m m')
    (hd : depth ≤ depth') : a.Keeps depth m m' := by
  intro p hs hp
  refine h p ?_ hp
  cases p with
  | operand j => exact Nat.lt_of_lt_of_le hs hd
  | slot s => exact hs
  | savedBase | returnAddress => trivial

/-- A word written at a place that is not saved. -/
theorem Keeps.setMem (ha : a.Fits) {depth : Nat} {p : Cell} (hp : a.Has p)
    (hs : ¬ p.IsSaved depth) (m : Machine) (w : MachineWord) :
    a.Keeps depth m (m.setMem (a.address p) w) := by
  intro q hq hq'
  rw [Machine.memory_setMem, if_neg]
  intro he
  exact hs (address_inj ha hq' hp he ▸ hq)

/-! ### Variables in memory -/

section
variable {memory memory' : MachineWord → MachineWord}

theorem stores_of_memory {vars : Variables} {bs : List (String × Slot)}
    (h : List.Forall₂ (a.Stores memory) vars bs)
    (hm : ∀ b ∈ bs, memory' (b.2.address a.base) = memory (b.2.address a.base)) :
    List.Forall₂ (a.Stores memory') vars bs := by
  induction h with
  | nil => exact .nil
  | @cons v b vars bs hv _ ih =>
    refine .cons ⟨hv.1, fun w hw => ?_⟩ (ih fun b hb => hm b (List.mem_cons_of_mem _ hb))
    exact (hm b List.mem_cons_self).trans (hv.2 w hw)

theorem stores_read {vars : Variables} {bs : List (String × Slot)} {name : String} {v : Value}
    {s : Slot} (h : List.Forall₂ (a.Stores memory) vars bs) (hv : vars.value? name = some v)
    (hs : bs.lookup name = some s) : memory (s.address a.base) = v.word := by
  induction h with
  | nil => cases hs
  | @cons x b vars bs hx _ ih =>
    obtain ⟨other, old⟩ := x
    obtain ⟨_, s'⟩ := b
    obtain ⟨rfl, hw⟩ : other = _ ∧ _ := hx
    simp only [Variables.value?, List.lookup_cons] at hv hs ih
    by_cases hn : name = other
    · simp only [hn, beq_self_eq_true, Option.some.injEq] at hv hs
      exact hs ▸ hw v (by simpa using hv)
    · simp only [beq_eq_false_iff_ne.mpr hn] at hv hs
      exact ih hv hs

/-- An assignment to a variable is a write to its word, if no two variables
share a word. -/
theorem stores_assign {vars vars' : Variables} {bs : List (String × Slot)} {name : String}
    {v : Value} {s : Slot} (h : List.Forall₂ (a.Stores memory) vars bs)
    (hv : Variables.assign? name v vars = some vars') (hs : bs.lookup name = some s)
    (hw : memory' (s.address a.base) = v.word)
    (hm : ∀ b ∈ bs, b.2 ≠ s → memory' (b.2.address a.base) = memory (b.2.address a.base))
    (hn : (bs.map Prod.snd).Nodup) : List.Forall₂ (a.Stores memory') vars' bs := by
  induction h generalizing vars' with
  | nil => cases hs
  | @cons x b vars bs hx hrest ih =>
    obtain ⟨other, old⟩ := x
    obtain ⟨_, s'⟩ := b
    obtain ⟨rfl, hold⟩ : other = _ ∧ _ := hx
    simp only [List.map_cons, List.nodup_cons] at hn
    simp only [Variables.assign?, List.lookup_cons] at hv hs
    by_cases he : name = other
    · simp only [he, if_true, beq_self_eq_true, Option.some.injEq] at hv hs
      subst hv hs
      refine .cons ⟨rfl, fun w hw' => ?_⟩ (stores_of_memory hrest fun b hb => ?_)
      · obtain rfl : v = w := Option.some.inj hw'
        exact hw
      · refine hm b (List.mem_cons_of_mem _ hb) ?_
        rintro rfl
        exact hn.1 (List.mem_map_of_mem hb)
    · simp only [he, if_false, beq_eq_false_iff_ne.mpr he, Option.map_eq_some_iff] at hv hs
      obtain ⟨rest', hv', rfl⟩ := hv
      have hs' : s' ≠ s := by
        rintro rfl
        exact hn.1 (List.mem_map_of_mem (Frame.mem_of_lookup hs))
      refine .cons ⟨rfl, fun w hw' => ?_⟩
        (ih hv' hs (fun b hb => hm b (List.mem_cons_of_mem _ hb)) hn.2)
      exact (hm _ List.mem_cons_self hs').trans (hold w hw')

end

namespace Holds

variable {f : Frame} {depth : Nat} {vars : Variables} {m m' : Machine}

theorem length (h : a.Holds f depth vars m) : vars.length = f.bindings.length :=
  h.stores.length_eq

/-- Only the names and words of a frame matter. -/
theorem congr {f' : Frame} (h : a.Holds f depth vars m) (hb : f'.bindings = f.bindings) :
    a.Holds f' depth vars m :=
  ⟨h.base, h.top, hb ▸ h.stores⟩

/-- The variables stay where the words of the frame stay. -/
theorem of_memory (h : a.Holds f depth vars m)
    (hb : m'.registers .ebp = m.registers .ebp) (ht : m'.registers .esp = m.registers .esp)
    (hm : ∀ b ∈ f.bindings, m'.memory (b.2.address a.base) = m.memory (b.2.address a.base)) :
    a.Holds f depth vars m' :=
  ⟨hb.trans h.base, ht.trans h.top, stores_of_memory h.stores hm⟩

theorem setReg (h : a.Holds f depth vars m) {r : Register} (hb : r ≠ .ebp) (ht : r ≠ .esp)
    (w : MachineWord) : a.Holds f depth vars (m.setReg r w) :=
  h.of_memory (by simp [hb.symm]) (by simp [ht.symm]) fun _ _ => rfl

theorem setCompared (h : a.Holds f depth vars m) (c : Option (MachineWord × MachineWord)) :
    a.Holds f depth vars (m.setCompared c) :=
  h.of_memory rfl rfl fun _ _ => rfl

/-- A write outside of the frame's words. -/
theorem setMem (h : a.Holds f depth vars m) (ha : a.Fits) (hf : a.Covers f) {p : Cell}
    (hp : a.Has p) (hs : ∀ s, p ≠ .slot s) (w : MachineWord) :
    a.Holds f depth vars (m.setMem (a.address p) w) := by
  refine h.of_memory rfl rfl fun b hb => ?_
  rw [Machine.memory_setMem, if_neg]
  intro he
  exact hs b.2 (address_inj ha hp (hf.has hb) he.symm)

theorem read (h : a.Holds f depth vars m) {name : String} {v : Value} {s : Slot}
    (hv : vars.value? name = some v) (hs : f.lookup? name = some s) :
    m.memory (s.address a.base) = v.word :=
  stores_read h.stores hv (f.lookup?_eq name ▸ hs)

theorem assign (h : a.Holds f depth vars m) (ha : a.Fits) (hf : a.Covers f) {name : String}
    {v : Value} {s : Slot} {vars' : Variables} (hv : vars.assign? name v = some vars')
    (hs : f.lookup? name = some s) :
    a.Holds f depth vars' (m.setMem (a.address (.slot s)) v.word) := by
  rw [f.lookup?_eq] at hs
  refine ⟨h.base, h.top, stores_assign h.stores hv hs ?_ (fun b hb hne => ?_) hf.placed.nodup⟩
  · exact if_pos rfl
  · rw [Machine.memory_setMem, if_neg]
    intro he
    exact hne (Cell.slot.inj (address_inj ha (hf.has hb) (hf.has (Frame.mem_of_lookup hs)) he))

theorem declare (h : a.Holds f depth vars m) (ha : a.Fits) {name : String}
    (hf : a.Covers (f.declare name)) (v : Value) :
    a.Holds (f.declare name) depth (vars.declare name v)
      (m.setMem (a.address (.slot f.nextSlot)) v.word) := by
  have hb := f.bindings_declare name
  have hn := hf.placed.nodup
  rw [hb, List.map_cons, List.nodup_cons] at hn
  refine ⟨h.base, h.top, hb ▸ .cons ⟨rfl, fun w hw => ?_⟩ (stores_of_memory h.stores fun b hbm => ?_)⟩
  · obtain rfl : v = w := Option.some.inj hw
    exact if_pos rfl
  · rw [Machine.memory_setMem, if_neg]
    intro he
    have hb₁ : a.Has (.slot b.2) :=
      hf.has (show (b.1, b.2) ∈ _ from hb ▸ List.mem_cons_of_mem _ hbm)
    have hb₂ : a.Has (.slot f.nextSlot) := hf.has (hb ▸ List.mem_cons_self)
    have hbs : b.2 = f.nextSlot := Cell.slot.inj (address_inj ha hb₁ hb₂ he)
    exact hn.1 (List.mem_map.mpr ⟨b, hbm, hbs⟩)

/-- At the end of a scope the variables and the frame drop the same names. -/
theorem leave {f' : Frame} {vars' : Variables} (h : a.Holds f depth vars m)
    (h' : a.Holds f' depth vars' m') (hg : f.enter.Grows f') :
    a.Holds f'.exit depth (vars'.leave vars.length) m' := by
  obtain ⟨scope, hs⟩ := hg.scopes (show f.enter.scopes = [] :: f.scopes from rfl)
  have hb : f'.exit.bindings = f.bindings := Frame.bindings_eq hg.exit_scopes hg.arguments
  have hl : f'.bindings.length = scope.length + f.bindings.length := by
    simp [Frame.bindings, hs, hg.arguments, Frame.enter]
  have hd : vars'.length - vars.length = scope.length := by
    rw [h'.length, h.length, hl]
    omega
  refine ⟨h'.base, h'.top, ?_⟩
  rw [Frame.bindings_exit hs, Variables.leave, hd]
  exact List.forall₂_drop _ h'.stores

end Holds
end Activation
end ClassCompiler
