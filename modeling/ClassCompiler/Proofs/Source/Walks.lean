import ClassCompiler.Source.Tree

/-!
# Walks that skip and stop

A visitor may leave out the inside of some nodes and stop at others. What such
a walk comes by is told by the walk that goes everywhere: the events inside the
skipped nodes are missing and no others are, and a walk that stops is the start
of the one that does not, up to the first node it stops at.

The events of a walk that does not stop are a plain list (`Tree.trail`), and a
walk that may stop cuts this list off (`Walk.upTo`). To leave out the inside of
a node of a list of events is to count how many nodes have been entered and not
left since (`Event.prune`).

Passes that do more than note events go along the same list: if a visitor goes by
the node alone whether to decline, what it does is done event by event along its
trail, for any monad.

Key definitions: `Visit.of`, `Visit.ofKinds`, `Tree.trail`, `Walk.upTo`, `Event.prune`,
`Event.entered`.

Key theorems: `Tree.traverse_eq_forM`, `Tree.walk_eq`, `Tree.traverse_eq_forM_entered`,
`Walk.upTo_cases`, `Tree.prune_trail`.
-/

namespace ClassCompiler.Tree

/-- The visitor that stops at some nodes and skips the inside of others. -/
def Visit.of (stop skip : Node → Bool) (n : Node) : Visit :=
  if stop n then .stop else if skip n then .skip else .descend

/-- The visitor that goes by the kind of a node: it skips the inside of some
kinds, and stops at one kind or at none. -/
def Visit.ofKinds (skip : NodeKind → Bool) (stop : Option NodeKind) : Node → Visit :=
  .of (fun n => some n.kind = stop) fun n => skip n.kind

/-! ### Walks one after another -/

namespace Walk

/-- One walk after another; a stopped walk is followed by nothing. -/
def andThen (w : Walk) (next : Walk) : Walk :=
  match w.stoppedAt with
  | some _ => w
  | none => ⟨w.events ++ next.events, next.stoppedAt⟩

def of (e : Event) : Walk := ⟨[e], none⟩

def nil : Walk := ⟨[], none⟩

/-- The walk with these events that ends at the first node to stop at. -/
def upTo (stop : Node → Bool) : List Event → Walk
  | [] => nil
  | .enter n :: es =>
    if stop n then ⟨[.enter n], some n⟩ else (of (.enter n)).andThen (upTo stop es)
  | .leave n :: es => (of (.leave n)).andThen (upTo stop es)

/-- Either the events have no node to stop at, or the walk ends with the first. -/
theorem upTo_cases (stop : Node → Bool) (es : List Event) :
    (upTo stop es = ⟨es, none⟩ ∧ ∀ n, .enter n ∈ es → stop n = false) ∨
    ∃ before n after, es = before ++ .enter n :: after ∧ stop n = true ∧
      (∀ m, .enter m ∈ before → stop m = false) ∧
      upTo stop es = ⟨before ++ [.enter n], some n⟩ := by
  induction es with
  | nil => exact .inl ⟨rfl, by simp⟩
  | cons e es ih =>
    cases e with
    | enter n =>
      by_cases hn : stop n = true
      · exact .inr ⟨[], n, es, rfl, hn, by simp, by simp [upTo, hn]⟩
      · have hn : stop n = false := by simpa using hn
        have hcons : ∀ {es : List Event}, (∀ m, .enter m ∈ es → stop m = false) →
            ∀ m, .enter m ∈ .enter n :: es → stop m = false := by
          intro es hes m hm
          rcases List.mem_cons.mp hm with hm | hm
          · rwa [Event.enter.inj hm]
          · exact hes m hm
        rcases ih with ⟨hw, hes⟩ | ⟨before, m, after, rfl, hm, hbefore, hw⟩
        · exact .inl ⟨by simp [upTo, hn, hw, of, andThen], hcons hes⟩
        · exact .inr ⟨.enter n :: before, m, after, rfl, hm, hcons hbefore,
            by simp [upTo, hn, hw, of, andThen]⟩
    | leave n =>
      rcases ih with ⟨hw, hes⟩ | ⟨before, m, after, rfl, hm, hbefore, hw⟩
      · exact .inl ⟨by simp [upTo, hw, of, andThen], by simpa using hes⟩
      · exact .inr ⟨.leave n :: before, m, after, rfl, hm, by simpa using hbefore,
          by simp [upTo, hw, of, andThen]⟩

end Walk

/-! ### The events of a walk that does not stop -/

mutual

/-- What is entered and left on a walk that goes into all nodes but those to skip. -/
def trail (skip : Node → Bool) : Tree → List Event
  | .branch n ts => .enter n :: ((if skip n then [] else trailAll skip ts) ++ [.leave n])

def trailAll (skip : Node → Bool) : List Tree → List Event
  | [] => []
  | t :: ts => trail skip t ++ trailAll skip ts

end

theorem trailAll_eq (skip : Node → Bool) (ts : List Tree) :
    trailAll skip ts = ts.flatMap (trail skip) := by
  induction ts with
  | nil => rfl
  | cons t ts ih => rw [trailAll, ih, List.flatMap_cons]

theorem trailAll_append (skip : Node → Bool) (ts ts' : List Tree) :
    trailAll skip (ts ++ ts') = trailAll skip ts ++ trailAll skip ts' := by
  simp only [trailAll_eq, List.flatMap_append]

namespace Event

/-- The nodes that are entered, in order. -/
def entered (es : List Event) : List Node :=
  es.filterMap fun
    | .enter n => some n
    | .leave _ => none

@[simp] theorem entered_enter (n : Node) (es : List Event) :
    entered (.enter n :: es) = n :: entered es := rfl

@[simp] theorem entered_leave (n : Node) (es : List Event) : entered (.leave n :: es) = entered es := rfl

@[simp] theorem entered_append (es es' : List Event) :
    entered (es ++ es') = entered es ++ entered es' := List.filterMap_append ..

end Event

mutual

theorem entered_trail : ∀ t : Tree,
    Event.entered (t.trail fun _ => false) = t.preorder.map (·.node)
  | .branch n ts => by
    rw [trail, preorder, Event.entered_enter, Event.entered_append, if_neg Bool.false_ne_true,
      entered_trailAll ts]
    simp [node, Event.entered]

theorem entered_trailAll : ∀ ts : List Tree,
    Event.entered (trailAll (fun _ => false) ts) = (preorderAll ts).map (·.node)
  | [] => rfl
  | t :: ts => by
    rw [trailAll, preorderAll, Event.entered_append, entered_trail t, entered_trailAll ts,
      List.map_append]

end

/-! ### Passes along a trail -/

section
variable {m : Type → Type} [Monad m] [LawfulMonad m] {v : Visitor m} {skip : Node → Bool}
  {act : Event → m Unit}

mutual

/-- A visitor that goes by the node whether to decline does its work along the
trail of the nodes it declines. -/
theorem traverse_eq_forM (henter : ∀ n, v.enter n = act (.enter n) >>= fun _ => pure !skip n)
    (hleave : ∀ n, v.leave n = act (.leave n)) : ∀ t : Tree, t.traverse v = forM (t.trail skip) act
  | .branch n ts => by
    rw [traverse, henter, hleave, trail, List.forM_cons, List.forM_append, bind_assoc]
    by_cases hskip : skip n = true
    · simp [hskip]
    · simp [hskip, traverseAll_eq_forM henter hleave ts]

theorem traverseAll_eq_forM
    (henter : ∀ n, v.enter n = act (.enter n) >>= fun _ => pure !skip n)
    (hleave : ∀ n, v.leave n = act (.leave n)) :
    ∀ ts : List Tree, traverseAll v ts = forM (trailAll skip ts) act
  | [] => rfl
  | t :: ts => by
    rw [traverseAll, trailAll, List.forM_append, traverse_eq_forM henter hleave t,
      traverseAll_eq_forM henter hleave ts]

end

end

section
variable (stop skip : Node → Bool)

/-- What a walk does at an event: it is noted, and a node to stop at ends the walk. -/
def note : Event → ExceptT Node (StateM (Array Event)) Unit
  | .enter n => do
    modify (·.push (.enter n))
    if stop n then throw n
  | .leave n => modify (·.push (.leave n))

theorem recorder_enter (n : Node) :
    (recorder (.of stop skip)).enter n = note stop (.enter n) >>= fun _ => pure !skip n := by
  simp only [recorder, note, Visit.of, bind_assoc]
  congr 1
  funext _
  by_cases hstop : stop n = true
  · simp only [hstop, if_true]
    rfl
  · by_cases hskip : skip n = true
    · simp [hstop, hskip]
    · simp [hstop, hskip]

/-- Events noted after others are the walk to the first node to stop at. -/
theorem run_forM_note (es : List Event) (noted : Array Event) :
    (forM es (note stop)).run.run noted =
      (match (Walk.upTo stop es).stoppedAt with
        | none => .ok ()
        | some n => .error n, noted ++ (Walk.upTo stop es).events.toArray) := by
  induction es generalizing noted with
  | nil =>
    show (Except.ok (), noted) = (Except.ok (), noted ++ #[])
    rw [Array.append_empty]
  | cons e es ih =>
    rw [List.forM_cons]
    cases e with
    | enter n =>
      by_cases hstop : stop n = true
      · simp only [Walk.upTo, hstop, if_true, note]
        rfl
      · have hstep : (note stop (.enter n) >>= fun _ => forM es (note stop)).run.run noted =
            (forM es (note stop)).run.run (noted.push (.enter n)) := by
          simp only [note, hstop]
          rfl
        rw [hstep, ih]
        simp [Walk.upTo, hstop, Walk.of, Walk.andThen]
    | leave n =>
      have hstep : (note stop (.leave n) >>= fun _ => forM es (note stop)).run.run noted =
          (forM es (note stop)).run.run (noted.push (.leave n)) := rfl
      rw [hstep, ih]
      simp [Walk.upTo, Walk.of, Walk.andThen]

/-- A walk follows its trail to the first node that it stops at. -/
theorem walk_eq (t : Tree) : t.walk (.of stop skip) = .upTo stop (t.trail skip) := by
  rw [walk, traverse_eq_forM (recorder_enter stop skip) (fun _ => rfl), run_forM_note]
  rcases Walk.upTo stop (t.trail skip) with ⟨es, _ | n⟩
  · simp
  · simp

end

/-- A visitor that stops nowhere is told every event of the trail. -/
theorem walk_eq_trail {visit : Node → Visit} (skip : Node → Bool)
    (h : ∀ n, visit n = if skip n then .skip else .descend) (t : Tree) :
    t.walk visit = ⟨t.trail skip, none⟩ := by
  have hvisit : visit = .of (fun _ => false) skip := funext h
  rw [hvisit, walk_eq]
  rcases Walk.upTo_cases (fun _ => false) (t.trail skip) with ⟨hw, -⟩ | ⟨_, _, _, -, hstop, -⟩
  · exact hw
  · cases hstop

theorem walk_descend (t : Tree) : t.walk (fun _ => .descend) = ⟨t.trail fun _ => false, none⟩ :=
  walk_eq_trail (fun _ => false) (fun _ => rfl) t

/-- A walk that goes everywhere enters the nodes in their order in the tree. -/
theorem entered_walk (t : Tree) :
    Event.entered (t.walk fun _ => .descend).events = t.preorder.map (·.node) := by
  rw [walk_descend, entered_trail]

section
variable {m : Type → Type} [Monad m] [LawfulMonad m] {v : Visitor m}

theorem forM_entered (act : Node → m Unit) (es : List Event) :
    forM es (fun
      | .enter n => act n
      | .leave _ => pure ()) = forM (Event.entered es) act := by
  induction es with
  | nil => rfl
  | cons e es ih =>
    cases e with
    | enter n => rw [List.forM_cons, Event.entered_enter, List.forM_cons, ih]
    | leave n => rw [List.forM_cons, Event.entered_leave, pure_bind, ih]

/-- A visitor that never declines and works on entering alone does its work at
the nodes that a walk enters which goes everywhere. -/
theorem traverse_eq_forM_entered {act : Node → m Unit}
    (henter : ∀ n, v.enter n = act n >>= fun _ => pure true) (hleave : ∀ n, v.leave n = pure ())
    (t : Tree) : t.traverse v = forM (Event.entered (t.walk fun _ => .descend).events) act := by
  rw [walk_descend, ← forM_entered]
  exact traverse_eq_forM henter hleave t

end

/-! ### What is left of the whole walk -/

namespace Event

/-- The events without those strictly between the enter and the leave of a node
to skip. `depth` counts the nodes that have been entered and not left since the
outermost such node was, this node included. -/
def prune (skip : Node → Bool) : Nat → List Event → List Event
  | _, [] => []
  | 0, .enter n :: es => .enter n :: prune skip (if skip n then 1 else 0) es
  | 0, .leave n :: es => .leave n :: prune skip 0 es
  | depth + 1, .enter _ :: es => prune skip (depth + 2) es
  | 1, .leave n :: es => .leave n :: prune skip 0 es
  | depth + 2, .leave _ :: es => prune skip (depth + 1) es

end Event

open Event

section
variable (skip : Node → Bool)

mutual

/-- Inside a node to skip nothing of a tree is left. -/
theorem prune_inside (depth : Nat) : ∀ (t : Tree) (es : List Event),
    prune skip (depth + 1) (t.trail (fun _ => false) ++ es) = prune skip (depth + 1) es
  | .branch n ts, es => by
    have hts := prune_insideAll (depth + 1) ts (.leave n :: es)
    simp only [trail, Bool.false_eq_true, if_false, List.cons_append, List.append_assoc,
      List.nil_append]
    rw [prune, hts, prune]

theorem prune_insideAll (depth : Nat) : ∀ (ts : List Tree) (es : List Event),
    prune skip (depth + 1) (trailAll (fun _ => false) ts ++ es) = prune skip (depth + 1) es
  | [], _ => rfl
  | t :: ts, es => by
    rw [trailAll, List.append_assoc, prune_inside depth t, prune_insideAll depth ts]

end

mutual

theorem prune_append : ∀ (t : Tree) (es : List Event),
    prune skip 0 (t.trail (fun _ => false) ++ es) = t.trail skip ++ prune skip 0 es
  | .branch n ts, es => by
    simp only [trail, Bool.false_eq_true, if_false, List.cons_append, List.append_assoc,
      List.nil_append]
    rw [prune]
    by_cases hn : skip n = true
    · rw [if_pos hn, if_pos hn, prune_insideAll skip 0 ts, prune, List.nil_append]
    · rw [if_neg hn, if_neg hn, prune_appendAll ts, prune]

theorem prune_appendAll : ∀ (ts : List Tree) (es : List Event),
    prune skip 0 (trailAll (fun _ => false) ts ++ es) = trailAll skip ts ++ prune skip 0 es
  | [], _ => rfl
  | t :: ts, es => by
    rw [trailAll, List.append_assoc, prune_append t, prune_appendAll ts, trailAll, List.append_assoc]

end

/-- A trail that skips is the trail that goes everywhere without what is inside
the skipped nodes. -/
theorem prune_trail (t : Tree) : prune skip 0 (t.trail fun _ => false) = t.trail skip := by
  have h := prune_append skip t []
  rwa [List.append_nil, prune, List.append_nil] at h

end

end ClassCompiler.Tree
