/-!
# JSON values

The values that unit files and layout files are written in. An object keeps its
members as they stand in the text, in order and with repetitions, because a
record refuses a repeated field. A whole number is kept as an integer if it
fits in 64 bits, signed or unsigned; every other number keeps its spelling and
is never read as anything.

A value can be written without there being anything that it stands for: a
number too large, or a text with one half of a surrogate pair. It keeps its
spelling, and so does an object with such a key. No reader takes it, but a
reader that has no use for it may pass it over; `Json.isReadable` rules it out
at every depth.

A record is written either as an object or as the list of its fields in order;
`Json.record?` reads both into one view, `Record`, that finds a field by name.
A variant is written as its name, or as an object whose one key is its name.

Key definitions: `Json`, `Json.depth`, `Json.isReadable`, `Record`, `Json.record?`,
`Json.variant?`.
-/

namespace ClassCompiler

inductive Json where
  | null
  | bool (value : Bool)
  | int (value : Int)
  | decimal (spelling : String)
  | unreadable (spelling : String)
  | str (value : String)
  | arr (items : List Json)
  | obj (members : List (String × Json))

instance : Inhabited Json := ⟨.null⟩

namespace Json

mutual

/-- How deep lists and objects nest in a value. -/
def depth : Json → Nat
  | .arr items => depthItems items + 1
  | .obj members => depthMembers members + 1
  | _ => 0

def depthItems : List Json → Nat
  | [] => 0
  | j :: js => max (depth j) (depthItems js)

def depthMembers : List (String × Json) → Nat
  | [] => 0
  | (_, j) :: ms => max (depth j) (depthMembers ms)

end

mutual

/-- Whether every part of a value stands for something. -/
def isReadable : Json → Bool
  | .unreadable _ => false
  | .arr items => areReadable items
  | .obj members => areReadableMembers members
  | _ => true

def areReadable : List Json → Bool
  | [] => true
  | j :: js => isReadable j && areReadable js

def areReadableMembers : List (String × Json) → Bool
  | [] => true
  | (_, j) :: ms => isReadable j && areReadableMembers ms

end

def bool? : Json → Option Bool
  | .bool b => some b
  | _ => none

def str? : Json → Option String
  | .str s => some s
  | _ => none

def nat? : Json → Option Nat
  | .int n => if 0 ≤ n then some n.toNat else none
  | _ => none

/-- A signed integer of 64 bits. -/
def int64? : Json → Option Int64
  | .int n => if Int64.minValue.toInt ≤ n ∧ n ≤ Int64.maxValue.toInt then some (.ofInt n) else none
  | _ => none

/-- A text of exactly one character. -/
def char? : Json → Option Char
  | .str s =>
    match s.toList with
    | [c] => some c
    | _ => none
  | _ => none

/-- A list, each item read alike. -/
def list? (read : Json → Option α) : Json → Option (List α)
  | .arr items => items.mapM read
  | _ => none

/-- A value that may be null. -/
def option? (read : Json → Option α) : Json → Option (Option α)
  | .null => some none
  | j => (read j).map some

/-- The name of a variant, and its payload if it is written as an object. -/
def variant? : Json → Option (String × Option Json)
  | .str name => some (name, none)
  | .obj [(name, payload)] => some (name, some payload)
  | _ => none

/-- The name of a variant that carries nothing: a text, or an object whose
payload is null. -/
def tag? (j : Json) : Option String :=
  match j.variant? with
  | some (name, none) => some name
  | some (name, some .null) => some name
  | _ => none

/-- A value that may be absent, written as null then. -/
def ofOption (write : α → Json) : Option α → Json
  | none => .null
  | some a => write a

def ofNat (n : Nat) : Json := .int n

def ofList (write : α → Json) (as : List α) : Json :=
  .arr (as.map write)

end Json

/-- The fields of a record, found by name. -/
structure Record where
  find? : String → Option Json

namespace Record

/-- A field that has to be there. -/
def get? (r : Record) (field : String) (read : Json → Option α) : Option α :=
  (r.find? field).bind read

/-- A field that stands for `default` if it is left out. -/
def getD? (r : Record) (field : String) (default : α) (read : Json → Option α) : Option α :=
  match r.find? field with
  | none => some default
  | some j => read j

end Record

namespace Json

/-- The record with the given fields that a value writes. As an object, a
field may not be repeated and other keys are passed over; as a list, the values
follow the order of the fields, and fields at the end may be left out. -/
def record? (fields : List String) : Json → Option Record
  | .obj members =>
    if ((members.map (·.1)).filter fields.contains).Nodup then some ⟨(members.lookup ·)⟩ else none
  | .arr items =>
    if items.length ≤ fields.length then some ⟨((fields.zip items).lookup ·)⟩ else none
  | _ => none

/-- An object as it is, found by key: the first of equal keys counts. -/
def object? : Json → Option Record
  | .obj members => some ⟨(members.lookup ·)⟩
  | _ => none

end Json
end ClassCompiler
