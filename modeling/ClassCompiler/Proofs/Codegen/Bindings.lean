import ClassCompiler.Codegen.Frame

/-!
# The bindings of a frame

All the names of a frame with their words, innermost first: the list that
lookup goes through. A frame is placed if no two of its names share a word,
if its local variables have words before the next free one, and if its
parameters have words among the arguments.

Generating a statement may bind names in the innermost scope and takes new
words only; the outer scopes and the parameters stay as they are (`Frame.Grows`).

Key definitions: `Frame.bindings`, `Frame.Placed`, `Frame.Grows`.

Key theorem: `Frame.lookup?_eq`.
-/

namespace ClassCompiler
namespace Frame

/-- The names in scope and their words, innermost first. -/
def bindings (f : Frame) : List (String × Slot) :=
  f.scopes.flatten.map (fun b => (b.1, .localVar b.2)) ++
    f.arguments.map fun b => (b.1, .argument b.2)

theorem lookup_map (g : α → β) (name : String) :
    ∀ bs : List (String × α), (bs.map fun b => (b.1, g b.2)).lookup name = (bs.lookup name).map g
  | [] => rfl
  | (other, a) :: bs => by
    simp only [List.map_cons, List.lookup_cons, lookup_map g name bs]
    cases name == other <;> rfl

theorem mem_of_lookup {name : String} {a : α} {bs : List (String × α)}
    (h : bs.lookup name = some a) : (name, a) ∈ bs := by
  obtain ⟨before, after, rfl, -⟩ := List.lookup_eq_some_iff.mp h
  simp

theorem lookup_flatten (name : String) :
    ∀ scopes : List (List (String × α)),
      scopes.flatten.lookup name = scopes.findSome? fun scope => scope.lookup name
  | [] => rfl
  | scope :: scopes => by
    rw [List.flatten_cons, List.lookup_append, List.findSome?_cons, lookup_flatten name scopes]
    cases scope.lookup name <;> rfl

/-- A name means its first binding. -/
theorem lookup?_eq (f : Frame) (name : String) : f.lookup? name = f.bindings.lookup name := by
  rw [bindings, List.lookup_append, lookup_map, lookup_map, lookup_flatten, lookup?]
  cases f.scopes.findSome? fun scope => scope.lookup name <;> rfl

@[simp] theorem bindings_enter (f : Frame) : f.enter.bindings = f.bindings := rfl

theorem bindings_declare (f : Frame) (name : String) :
    (f.declare name).bindings = (name, f.nextSlot) :: f.bindings := by
  rcases f with ⟨next, arguments, _ | ⟨scope, outer⟩⟩ <;> simp [bindings, declare, nextSlot]

/-- Leaving a scope drops its names. -/
theorem bindings_exit {f : Frame} {scope : List (String × Nat)} {outer : List (List (String × Nat))}
    (h : f.scopes = scope :: outer) : f.exit.bindings = f.bindings.drop scope.length := by
  have hl : scope.length ≤ ((scope ++ outer.flatten).map fun b => (b.1, Slot.localVar b.2)).length := by
    simp
  rw [bindings, bindings, exit, h, List.tail_cons, List.flatten_cons,
    List.drop_append_of_le_length hl, List.map_append, List.drop_left' (by simp)]

/-- No two names share a word, and every word is inside the frame. -/
structure Placed (f : Frame) (arguments : Nat) : Prop where
  nodup : (f.bindings.map Prod.snd).Nodup
  localVar : ∀ {name k}, (name, .localVar k) ∈ f.bindings → k < f.nextLocal
  argument : ∀ {name i}, (name, .argument i) ∈ f.bindings → i < arguments

theorem Placed.enter {f : Frame} {arguments : Nat} (h : f.Placed arguments) :
    f.enter.Placed arguments :=
  ⟨h.nodup, h.localVar, h.argument⟩

theorem Placed.declare {f : Frame} {arguments : Nat} (h : f.Placed arguments) (name : String) :
    (f.declare name).Placed arguments := by
  refine ⟨?_, ?_, ?_⟩
  · rw [bindings_declare, List.map_cons, List.nodup_cons]
    refine ⟨fun hmem => ?_, h.nodup⟩
    obtain ⟨⟨other, s⟩, hb, hs⟩ := List.mem_map.mp hmem
    obtain rfl : s = .localVar f.nextLocal := hs
    exact Nat.lt_irrefl _ (h.localVar hb)
  · intro other k hb
    rw [bindings_declare, List.mem_cons] at hb
    rcases hb with hb | hb
    · obtain ⟨-, hk⟩ := Prod.mk.inj hb
      obtain rfl : k = f.nextLocal := Slot.localVar.inj hk
      exact Nat.lt_succ_self _
    · exact Nat.lt_succ_of_lt (h.localVar hb)
  · intro other i hb
    rw [bindings_declare, List.mem_cons] at hb
    rcases hb with hb | hb
    · cases (Prod.mk.inj hb).2
    · exact h.argument hb

theorem Placed.exit {f : Frame} {arguments : Nat} (h : f.Placed arguments) :
    f.exit.Placed arguments := by
  have hsub : f.exit.bindings.Sublist f.bindings := by
    rcases f with ⟨next, args, _ | ⟨scope, outer⟩⟩
    · exact List.Sublist.refl _
    · rw [bindings_exit rfl]
      exact List.drop_sublist _ _
  exact ⟨h.nodup.sublist (hsub.map _), fun hb => h.localVar (hsub.subset hb),
    fun hb => h.argument (hsub.subset hb)⟩

/-- What generating a statement leaves of the frame: the parameters, the outer
scopes, and the words that were taken. -/
structure Grows (f f' : Frame) : Prop where
  arguments : f'.arguments = f.arguments
  nextLocal : f.nextLocal ≤ f'.nextLocal
  scopes : ∀ {scope outer}, f.scopes = scope :: outer → ∃ scope', f'.scopes = scope' :: outer

theorem Grows.refl (f : Frame) : f.Grows f :=
  ⟨rfl, Nat.le_refl _, fun h => ⟨_, h⟩⟩

theorem Grows.trans {f f' f'' : Frame} (h : f.Grows f') (h' : f'.Grows f'') : f.Grows f'' := by
  refine ⟨h'.arguments.trans h.arguments, Nat.le_trans h.nextLocal h'.nextLocal, fun hs => ?_⟩
  obtain ⟨scope', hs'⟩ := h.scopes hs
  exact h'.scopes hs'

theorem Grows.declare (f : Frame) (name : String) : f.Grows (f.declare name) :=
  ⟨rfl, Nat.le_succ _, fun h => ⟨_, by simp [Frame.declare, h]; rfl⟩⟩

/-- What has grown inside a scope of its own is the same outside of it. -/
theorem Grows.exit_scopes {f f' : Frame} (h : f.enter.Grows f') : f'.exit.scopes = f.scopes := by
  obtain ⟨scope', hs⟩ := h.scopes (show f.enter.scopes = [] :: f.scopes from rfl)
  simp [Frame.exit, hs]

theorem Grows.exit {f f' : Frame} (h : f.enter.Grows f') : f.Grows f'.exit :=
  ⟨h.arguments, h.nextLocal, fun hs => ⟨_, h.exit_scopes.trans hs⟩⟩

theorem bindings_eq {f f' : Frame} (hs : f'.scopes = f.scopes) (ha : f'.arguments = f.arguments) :
    f'.bindings = f.bindings := by
  rw [bindings, bindings, hs, ha]

end Frame
end ClassCompiler
