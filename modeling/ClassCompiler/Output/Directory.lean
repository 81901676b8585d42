import ClassCompiler.Output.Path

/-!
# The output directory

A directory is known by its path and by what can be reached from it: its own
entries and, for files with an absolute name, those of the whole machine.
Creating a file empties it if it is there already; it fails where a directory
stands in its place, where something on the way is missing or not a directory,
or where a name is too long. An entry may also lead to a device without room:
it can be created, and refuses whatever is written.

Key definitions: `Entry`, `Directory`, `Directory.get?`, `Directory.pathOf`,
`Directory.create`, `Directory.write`, `Directory.remove`.

Key theorems: `Directory.get?_set` and `Directory.get?_remove`: a change at one
path shows at that path only.
-/

namespace ClassCompiler

inductive Entry where
  | file (text : String)
  | directory
  | fullDevice
deriving DecidableEq

/-- A directory at the path `base`, and all entries by their path from the root. -/
structure Directory where
  base : Path
  entries : List (Path × Entry)

namespace Directory

def get? (d : Directory) (path : Path) : Option Entry :=
  d.entries.lookup path

def remove (d : Directory) (path : Path) : Directory :=
  { d with entries := d.entries.filter fun e => e.1 != path }

/-- Put an entry in the place of whatever had its path. -/
def set (d : Directory) (path : Path) (entry : Entry) : Directory :=
  { d with entries := (path, entry) :: (d.remove path).entries }

theorem get?_remove (d : Directory) (path other : Path) :
    (d.remove path).get? other = if other = path then none else d.get? other := by
  rcases d with ⟨base, entries⟩
  simp only [get?, remove]
  induction entries with
  | nil => simp
  | cons e rest ih =>
    rcases e with ⟨key, entry⟩
    by_cases hk : key = path
    · subst hk
      by_cases ho : other = key
      · simpa [ho] using ih
      · have hne : (other == key) = false := by simpa using ho
        simpa [ho, List.lookup_cons, hne] using ih
    · by_cases ho : other = key
      · subst ho
        simp [hk]
      · have hne : (other == key) = false := by simpa using ho
        simp [hk, List.lookup_cons, hne, ih]

theorem get?_set (d : Directory) (path other : Path) (entry : Entry) :
    (d.set path entry).get? other = if other = path then some entry else d.get? other := by
  have h := d.get?_remove path other
  simp only [get?, set] at h ⊢
  by_cases ho : other = path
  · simp [ho]
  · have hne : (other == path) = false := by simpa using ho
    simp [List.lookup_cons, hne, ho, h]

/-- Put an entry at a path below `above`, making the directories on the way. -/
def put (d : Directory) (above : Path) (entry : Entry) : Path → Directory
  | [] => d
  | [name] => d.set (above ++ [name]) entry
  | name :: names =>
    let d := if (d.get? (above ++ [name])).isSome then d else d.set (above ++ [name]) .directory
    d.put (above ++ [name]) entry names

/-- Why no file can be created at a path below `above`. The names on the way
are looked up one by one. -/
def obstacle? (d : Directory) (above : Path) : Path → Option Fault
  | [] => some .isDirectory
  | [name] =>
    if Path.nameLimit < name.utf8ByteSize then some .nameTooLong
    else if d.get? (above ++ [name]) = some .directory then some .isDirectory
    else none
  | name :: names =>
    if Path.nameLimit < name.utf8ByteSize then some .nameTooLong
    else
      match d.get? (above ++ [name]) with
      | none => some .notFound
      | some .directory => d.obstacle? (above ++ [name]) names
      | some _ => some .notDirectory

/-- Where a file is that is named from the directory. -/
def pathOf (d : Directory) (file : String) : Path :=
  if Path.isAbsolute file then Path.steps file else d.base ++ Path.steps file

/-- Create a file that is named from the directory, or empty it. -/
def create (d : Directory) (file : String) : Except Fault Directory :=
  match d.obstacle? (if Path.isAbsolute file then [] else d.base) (Path.steps file) with
  | some fault => .error fault
  | none =>
    .ok (if d.get? (d.pathOf file) = some .fullDevice then d else d.set (d.pathOf file) (.file ""))

/-- Give a created file its text. -/
def write (d : Directory) (path : Path) (text : String) : Directory :=
  if d.get? path = some .fullDevice then d else d.set path (.file text)

/-- The paths and texts of the regular files that can be reached. -/
def allFiles (d : Directory) : List (Path × String) :=
  d.entries.filterMap fun
    | (path, .file text) => some (path, text)
    | _ => none

/-- The regular files in the directory, by their paths from there. -/
def files (d : Directory) : List (Path × String) :=
  d.allFiles.filterMap fun (path, text) =>
    if path.take d.base.length = d.base then some (path.drop d.base.length, text) else none

end Directory
end ClassCompiler
