import ClassCompiler.Proofs.Codegen.UnitSymbols

/-!
# The lines of generated code

Between the entry of a routine and its end stand captions, numbered labels and
instructions that have no symbol among their operands; only the end returns. The
code of a class is that of its routines in order, with remarks for the methods
that have no body, and then its vtable. The count of temporary labels goes on
from one member to the next, and the vtable leaves it as it is.

Key definitions: `Line.InBody`, `Listing.InBody`.

Key theorems: `TaskCode.inBody`, `Routine.lines_of_gives`, `Member.remark_of_gives`,
`CompilationUnit.nextLabel_of_gives`.
-/

namespace ClassCompiler

/-! ### The lines of a body -/

/-- The lines that a body is made of. -/
inductive Line.InBody : Line Instr → Prop
  | caption (s : Stmt) : InBody s.caption
  | label (n : Nat) : InBody (.label (.temporary n))
  | instr {i : Instr} (hret : i ≠ .ret) (hrefs : ∀ l ∈ i.references, ∃ n, l = .temporary n) :
    InBody (.instr i)

namespace Listing

def InBody (ls : Listing) : Prop := ∀ line ∈ ls, line.InBody

namespace InBody

variable {as bs : Listing}

theorem nil : InBody [] := List.forall_mem_nil _

theorem append (ha : as.InBody) (hb : bs.InBody) : (as ++ bs).InBody :=
  List.forall_mem_append.mpr ⟨ha, hb⟩

theorem caption (s : Stmt) (h : as.InBody) : InBody (s.caption :: as) :=
  List.forall_mem_cons.mpr ⟨.caption s, h⟩

theorem label (n : Nat) (h : as.InBody) : InBody (.label (.temporary n) :: as) :=
  List.forall_mem_cons.mpr ⟨.label n, h⟩

theorem jmp (n : Nat) (h : as.InBody) : InBody (.instr (.jmp (.temporary n)) :: as) := by
  refine List.forall_mem_cons.mpr ⟨.instr (by simp) ?_, h⟩
  simp [Instr.references]

/-- An instruction without labels and symbols. -/
theorem instr {i : Instr} (hret : i ≠ .ret) (hrefs : i.references = []) (h : as.InBody) :
    InBody (.instr i :: as) := by
  refine List.forall_mem_cons.mpr ⟨.instr hret ?_, h⟩
  rw [hrefs]
  exact List.forall_mem_nil _

theorem jumpOn (c : Condition) (n : Nat) : InBody (jumpOn c (.temporary n)) := by
  refine instr (by simp) rfl (List.forall_mem_singleton.mpr (.instr (by simp) ?_))
  simp [Instr.references]

theorem ret_notMem (h : as.InBody) : .instr .ret ∉ as := by
  intro hm
  cases h _ hm with
  | instr hret => exact hret rfl

end InBody
end Listing

open Listing

theorem BinaryOp.inBody_emitEager {op : BinaryOp} {n n' : Nat} {ls : Listing} {u : Unit}
    (h : op.emitEager.Gives n ls n' u) : ls.InBody := by
  cases op with
  | and | or => exact absurd h Emit.gives_fail
  | lt | le | gt | ge | eq | ne =>
    simp only [BinaryOp.emitEager, emitComparison, Emit.gives_fresh_bind, Emit.gives_lines] at h
    obtain ⟨rfl, rfl⟩ := h
    have hend : InBody [.instr (.mov .eax (.imm 1)), .label (.temporary n)] :=
      .instr (by simp) rfl (.label n .nil)
    refine .instr (by simp) rfl (.instr (by simp) rfl (List.forall_mem_cons.mpr ⟨.instr (by simp) ?_, hend⟩))
    simp [Instr.references]
  | add | mul | bitAnd | bitOr =>
    obtain ⟨rfl, rfl⟩ := Emit.gives_instr.mp h
    exact .instr (by simp) rfl .nil
  | sub =>
    obtain ⟨rfl, rfl⟩ := Emit.gives_lines.mp h
    exact .instr (by simp) rfl (.instr (by simp) rfl .nil)
  | div =>
    obtain ⟨rfl, rfl⟩ := Emit.gives_lines.mp h
    exact .instr (by simp) rfl (.instr (by simp) rfl (.instr (by simp) rfl .nil))
  | mod =>
    obtain ⟨rfl, rfl⟩ := Emit.gives_lines.mp h
    exact .instr (by simp) rfl (.instr (by simp) rfl (.instr (by simp) rfl (.instr (by simp) rfl .nil)))

theorem UnaryOp.inBody_emit {op : UnaryOp} {n n' : Nat} {ls : Listing} {u : Unit}
    (h : op.emit.Gives n ls n' u) : ls.InBody := by
  cases op <;> obtain ⟨rfl, rfl⟩ := Emit.gives_instr.mp h <;> exact .instr (by simp) rfl .nil

theorem ExprCode.inBody {f : Frame} {e : Expr} {n n' : Nat} {ls : Listing}
    (h : ExprCode f e n ls n') : ls.InBody := by
  induction h with
  | literal _ | name _ => exact .instr (by simp) rfl .nil
  | shortCircuit _ _ _ ihl ihr =>
    exact ihl.append ((InBody.jumpOn _ _).append (ihr.append (.label _ .nil)))
  | eager _ _ _ ho ihl ihr =>
    have hcombine := InBody.instr (i := .pop .ebx) (by simp) rfl (BinaryOp.inBody_emitEager ho)
    exact ihl.append (.instr (by simp) rfl (ihr.append hcombine))
  | unary _ ho ih => exact ih.append (UnaryOp.inBody_emit ho)
  | assign _ _ ih => exact ih.append (.instr (by simp) rfl .nil)

theorem OptionCode.inBody {f : Frame} {o : Option Expr} {n n' : Nat} {ls : Listing}
    (h : OptionCode f o n ls n') : ls.InBody := by
  cases h with
  | absent => exact .nil
  | present h => exact h.inBody

theorem TestCode.inBody {f : Frame} {k : Nat} {o : Option Expr} {n n' : Nat} {ls : Listing}
    (h : TestCode f (.temporary k) o n ls n') : ls.InBody := by
  cases h with
  | absent => exact .nil
  | present h => exact h.inBody.append (.jumpOn _ _)

/-- The code of a task is made of the lines of a body. -/
theorem TaskCode.inBody {k : Nat} {f f' : Frame} {t : Task} {n n' : Nat} {ls : Listing}
    (h : TaskCode (.temporary k) f t n ls n' f') : ls.InBody := by
  induction h with
  | expr h => exact .caption _ h.inBody
  | localVar h => exact .caption _ (h.inBody.append (.instr (by simp) rfl .nil))
  | branch hc _ ih =>
    exact .caption _ (hc.inBody.append ((InBody.jumpOn _ _).append (ih.append (.label _ .nil))))
  | branchElse hc _ _ iht ihe =>
    refine .caption _ (hc.inBody.append ((InBody.jumpOn _ _).append (iht.append ?_)))
    exact .jmp _ (.label _ (ihe.append (.label _ .nil)))
  | whileLoop _ ih => exact .caption _ ih
  | forLoop _ _ ihi ih => exact .caption _ (ihi.append ih)
  | ret h => exact .caption _ (h.inBody.append (.jmp _ .nil))
  | block _ ih => exact ih
  | empty | nil => exact .nil
  | cons _ _ ih ihs => exact ih.append ihs
  | loop hc _ hu ih =>
    exact .label _ (hc.inBody.append (ih.append (hu.inBody.append (.jmp _ (.label _ .nil)))))

namespace Routine

variable {r : Routine} {n n' : Nat} {ls : Listing} {u : Unit}

/-- What stands between the label of a routine and its return. -/
theorem lines_of_gives (h : r.emit.Gives n ls n' u) :
    ∃ body : Listing, ls = [.blank, r.caption, .exported r.symbol] ++ .label (.symbol r.symbol) ::
        (body ++ [.instr .ret]) ∧
      body.InBody ∧ body.RefersTo [] ∧ body.Defines n n' := by
  obtain ⟨lb, f', hcode, -, rfl⟩ := code_of_gives h
  let enter : Listing := .instr (.push .ebp) :: .instr (.mov .ebp (.reg .esp)) ::
    reserve r.body.localCount
  let leave : Listing := [.label (.temporary n), .instr (.mov .esp (.reg .ebp)), .instr (.pop .ebp)]
  have hreserve : (reserve r.body.localCount).InBody ∧ (reserve r.body.localCount).references = [] ∧
      (reserve r.body.localCount).labels = [] := by
    unfold reserve
    split
    · exact ⟨.nil, rfl, rfl⟩
    · exact ⟨.instr (by simp) rfl .nil, rfl, rfl⟩
  have henter : enter.InBody := .instr (by simp) rfl (.instr (by simp) rfl hreserve.1)
  have hleave : leave.InBody := .label n (.instr (by simp) rfl (.instr (by simp) rfl .nil))
  have hquiet : enter.RefersTo [.temporary n] := .of_references_eq_nil hreserve.2.1
  have hrefs : (enter ++ (lb ++ leave)).RefersTo [.temporary n] :=
    hquiet.append ((hcode.inner (List.mem_singleton_self _)).refersTo.append (.of_references_eq_nil rfl))
  refine ⟨enter ++ (lb ++ leave), ?_, henter.append (hcode.inBody.append hleave),
    hrefs.define (by simp [leave]), ?_⟩
  · simp [enter, leave, entry, reserve, epilogue]
  · refine ((Defines.label n).append hcode.defines).of_count fun l => ?_
    have hlabels : enter.labels = [] := hreserve.2.2
    simp only [labels_append, hlabels, List.nil_append, List.count_append]
    exact Nat.add_comm _ _

end Routine

/-! ### Members and units -/

section
variable {owner : String} {n n' : Nat} {ls : Listing} {u : Unit}

/-- A member without a routine has at most a remark, and takes no label. -/
theorem Member.remark_of_gives {member : Member} (hr : member.routine? owner = none)
    (h : (member.emit owner).Gives n ls n' u) :
    n' = n ∧ (ls = [] ∨ ∃ m, member = .method m ∧ ls = [.blank,
      .header (Symbol.ofMethod owner (Method.ofDecl owner m).signature ++ " has no body")]) := by
  cases member with
  | field f =>
    rw [Member.emit, FieldDecl.emit] at h
    split at h
    · exact absurd h Emit.gives_fail
    · obtain ⟨rfl, rfl, -⟩ := Emit.gives_pure.mp h
      exact ⟨rfl, .inl rfl⟩
  | method m =>
    have hb : m.body = none := Option.map_eq_none_iff.mp hr
    simp only [Member.emit, MethodDecl.emit, hb] at h
    simp only [MethodDecl.emitBodyless] at h
    split at h
    · exact absurd h Emit.gives_fail
    · split at h
      · exact absurd h Emit.gives_fail
      · obtain ⟨rfl, rfl⟩ := Emit.gives_lines.mp h
        exact ⟨rfl, .inr ⟨m, rfl, rfl⟩⟩
  | ctor k => cases hr

end

namespace CompilationUnit

variable {layout : Layout} {u : CompilationUnit} {n n' k : Nat} {ls code : Listing} {x : Unit}

/-- The labels of a class are those of its members. -/
theorem nextLabel_of_gives {c : ClassDecl} (hd : u.decl = .ofClass c)
    (h : (u.emit layout).Gives n ls n' x)
    (hm : (Emit.each (Member.emit u.qualifiedName) c.members).Gives n code k ()) : n' = k := by
  rw [emit_eq] at h
  obtain ⟨_, hdecl, rfl⟩ := Emit.gives_lines_bind.mp h
  rw [hd] at hdecl
  obtain ⟨_, k', _, _, hm', hv, rfl⟩ := Emit.gives_bind.mp hdecl
  have hk : k' = k := congrArg Emission.nextLabel (Eq.trans (Eq.symm hm') hm)
  rw [Layout.emitVtable] at hv
  split at hv
  · exact absurd hv Emit.gives_fail
  · rw [(Emit.gives_lines.mp hv).2, hk]

theorem nextLabel_of_interface {i : InterfaceDecl} (hd : u.decl = .ofInterface i)
    (h : (u.emit layout).Gives n ls n' x) : n' = n := by
  rw [emit_eq] at h
  obtain ⟨_, hdecl, rfl⟩ := Emit.gives_lines_bind.mp h
  rw [hd] at hdecl
  exact (Emit.gives_lines.mp hdecl).2

end CompilationUnit
end ClassCompiler
