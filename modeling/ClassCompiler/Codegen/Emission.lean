import ClassCompiler.Assembly.Listing
import ClassCompiler.Error

/-!
# Emissions

Code generation as a value: given the number of the next temporary label, an
emission is the lines that were generated, the next label after them, and a
result. An emission that fails still has the lines and labels up to the
failure, because both can be seen: the lines when the place they go to is
limited, the labels in the units that follow.

Key definitions: `Emission`, `Emit`, `Emit.line`, `Emit.fresh`, `Emit.fail`,
`Emission.text`.

Key theorems: `Emit.bind_of_ok` and `Emit.bind_of_error` say what one piece of
code after another is.
-/

namespace ClassCompiler

structure Emission (α : Type) where
  lines : Listing
  nextLabel : Nat
  result : Except Error α

/-- A piece of code generation that starts at a given temporary label. -/
def Emit (α : Type) := Nat → Emission α

namespace Emit

protected def pure (a : α) : Emit α := fun n => ⟨[], n, .ok a⟩

/-- One piece of code after another; a failed one is followed by nothing. -/
protected def bind (e : Emit α) (f : α → Emit β) : Emit β := fun n =>
  match e n with
  | ⟨lines, n', .error err⟩ => ⟨lines, n', .error err⟩
  | ⟨lines, n', .ok a⟩ =>
    let rest := f a n'
    ⟨lines ++ rest.lines, rest.nextLabel, rest.result⟩

instance : Monad Emit where
  pure := Emit.pure
  bind := Emit.bind

/-- What follows a failed piece of code is not generated. -/
theorem bind_of_error {e : Emit α} {n k : Nat} {ls : Listing} {err : Error}
    (h : e n = ⟨ls, k, .error err⟩) (f : α → Emit β) : (e >>= f) n = ⟨ls, k, .error err⟩ := by
  simp only [bind, Emit.bind, h]

/-- What follows a finished piece of code starts at the next label after it. -/
theorem bind_of_ok {e : Emit α} {n k : Nat} {ls : Listing} {a : α}
    (h : e n = ⟨ls, k, .ok a⟩) (f : α → Emit β) :
    (e >>= f) n = ⟨ls ++ (f a k).lines, (f a k).nextLabel, (f a k).result⟩ := by
  simp only [bind, Emit.bind, h]

instance : LawfulMonad Emit := LawfulMonad.mk' Emit
  (by
    intro α x
    funext n
    rcases h : x n with ⟨ls, k, _ | a⟩
    · exact bind_of_error h _
    · exact (bind_of_ok h _).trans (by simp [Emit.pure]))
  (fun _ _ => rfl)
  (by
    intro α β γ x f g
    funext n
    rcases h : x n with ⟨ls, k, _ | a⟩
    · rw [bind_of_error h, bind_of_error (bind_of_error h f)]
    · rcases h' : f a k with ⟨ls', k', _ | b⟩
      · rw [bind_of_ok h, bind_of_error h', bind_of_error (by rw [bind_of_ok h, h'])]
      · rw [bind_of_ok h, bind_of_ok h', bind_of_ok (by rw [bind_of_ok h, h'])]
        simp)

def fail (e : Error) : Emit α := fun n => ⟨[], n, .error e⟩

def lines (ls : Listing) : Emit Unit := fun n => ⟨ls, n, .ok ()⟩

def line (l : Line Instr) : Emit Unit := lines [l]

def instr (i : Instr) : Emit Unit := line (.instr i)

/-- The next temporary label. -/
def fresh : Emit Label := fun n => ⟨[], n + 1, .ok (.temporary n)⟩

def label (l : Label) : Emit Unit := line (.label l)

/-- One piece of code for each item. -/
def each (emit : α → Emit Unit) : List α → Emit Unit
  | [] => pure ()
  | a :: as => do
    emit a
    each emit as

end Emit

namespace Emission

/-- The text of a finished emission. -/
def text (comments : Bool) (e : Emission α) : Except Error String :=
  match e.result with
  | .error err => .error err
  | .ok _ => .ok (e.lines.text comments)

/-- The text of an emission that goes where there is room for `limit` bytes:
whichever comes first of the failure and the end of the room is the answer. -/
def textWithin (comments : Bool) (limit : Nat) (e : Emission α) : Except Error String :=
  if e.lines.size comments ≤ limit then e.text comments else .error (.writing .limit)

end Emission
end ClassCompiler
