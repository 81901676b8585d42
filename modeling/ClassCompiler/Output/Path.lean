import ClassCompiler.Error

/-!
# Paths

A path is written as names between slashes. Its steps are those names without
the empty ones, so that two texts may mean one path. It starts at the root if
its text starts with a slash, and where its reader is otherwise.

Key definitions: `Path`, `Path.join`, `Path.steps`, `Path.text`, `Path.textFault?`.

Key theorem: `Path.steps_of_plain`: a name without a slash is the one step of
its path.
-/

namespace ClassCompiler

/-- The names that lead to something, one directory after another. -/
abbrev Path := List String

namespace Path

def isAbsolute (path : String) : Bool :=
  path.toList.head? = some '/'

/-- The written path of something that is named from a directory. -/
def join (dir name : String) : String :=
  if dir = "" || isAbsolute name then name
  else if dir.endsWith "/" then dir ++ name
  else dir ++ "/" ++ name

/-- The parts of a text between occurrences of a character. -/
def split (sep : Char) : List Char → List (List Char)
  | [] => [[]]
  | c :: cs =>
    if c = sep then [] :: split sep cs
    else
      match split sep cs with
      | [] => [[c]]
      | part :: parts => (c :: part) :: parts

theorem split_of_notMem {sep : Char} : ∀ {cs : List Char}, sep ∉ cs → split sep cs = [cs]
  | [], _ => rfl
  | c :: cs, h => by
    have hc : c ≠ sep := fun e => h (e ▸ List.mem_cons_self)
    have ih := split_of_notMem (fun hm => h (List.mem_cons_of_mem c hm))
    simp [split, hc, ih]

/-- The steps of a written path. -/
def steps (path : String) : Path :=
  ((split '/' path.toList).map String.ofList).filter (· != "")

theorem steps_of_plain {name : String} (hs : '/' ∉ name.toList) (he : name ≠ "") :
    steps name = [name] := by
  simp [steps, split_of_notMem hs, he]

/-- The paths after `done` to each step that is not a single dot, the longest
first. -/
def stages (done : Path) : Path → List Path
  | [] => []
  | step :: rest =>
    stages (done ++ [step]) rest ++ if step = "." then [] else [done ++ [step]]

/-- The paths of the directories that a path leads through, the nearest first. -/
def above (path : Path) : List Path :=
  (stages [] path).drop 1

/-- A path as it is written from where it starts. -/
def text (path : Path) : String :=
  String.intercalate "/" path

/-- Whether a written path can only be that of a directory. -/
def namesDirectory (path : String) : Bool :=
  path.endsWith "/"

/-- The last step of a written path. -/
def fileName (path : String) : String :=
  String.ofList (path.toList.reverse.takeWhile (· != '/')).reverse

/-- Whether a file is taken for a unit file when its directory is read. -/
def isUnitFile (path : String) : Bool :=
  (fileName path).endsWith ".json" && fileName path != ".json"

/-- The most bytes that a name may have. -/
def nameLimit : Nat := 255

/-- The most bytes that a written path may have. -/
def textLimit : Nat := 4095

/-- Why a text is no path, wherever it may lead. -/
def textFault? (path : String) : Option Fault :=
  if path.toList.contains (Char.ofNat 0) then some .invalidName
  else if textLimit < path.utf8ByteSize then some .nameTooLong
  else none

end Path
end ClassCompiler
