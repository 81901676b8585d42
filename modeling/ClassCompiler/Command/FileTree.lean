import ClassCompiler.Output.Compile

/-!
# File trees

The files and directories of a machine as a value, and paths in them as they
are written on a command line: from the root or from where the reader is,
perhaps with dots.

Key definitions: `FileTree`, `FileTree.locate?`, `FileTree.search`, `FileTree.makeDirectory`,
`FileTree.directoryAt`, `FileTree.ofDirectory`.
-/

namespace ClassCompiler

inductive FileTree where
  | file (text : String)
  | directory (entries : List (String × FileTree))

/-- What is met in a search through a directory: a file, or a directory that
cannot be opened. -/
inductive Found where
  | file (path : String)
  | closed

namespace Found

/-- Whether it matters to a search for unit files. -/
def matters : Found → Bool
  | .file path => Path.isUnitFile path
  | .closed => true

end Found

namespace FileTree

def empty : FileTree := .directory []

def isDirectory : FileTree → Bool
  | .directory _ => true
  | .file _ => false

/-- What is at the end of a row of names. -/
def get? : Path → FileTree → Option FileTree
  | [], t => some t
  | name :: names, .directory entries => (entries.lookup name).bind (get? names)
  | _ :: _, .file _ => none

/-- Replace the entry of a name, or add one. -/
def setEntry (name : String) (t : FileTree) (entries : List (String × FileTree)) :
    List (String × FileTree) :=
  entries.filter (fun e => e.1 != name) ++ [(name, t)]

/-- Put a tree at the end of a row of names, making directories on the way. -/
def put (t : FileTree) (names : Path) (new : FileTree) : FileTree :=
  match names, t with
  | [], _ => new
  | name :: names, .directory entries =>
    .directory (setEntry name (((entries.lookup name).getD empty).put names new) entries)
  | _ :: _, .file text => .file text

mutual

/-- All that is met in a tree at a written path, the entries of a directory in
the order of their names. A directory whose path is too long stays closed. -/
def search (path : String) : FileTree → List Found
  | .file _ => [.file path]
  | .directory entries =>
    if (Path.textFault? path).isSome then [.closed]
    else ((searchEach path entries).mergeSort fun a b => a.1 ≤ b.1).flatMap (·.2)

def searchEach (path : String) : List (String × FileTree) → List (String × List Found)
  | [] => []
  | (name, t) :: entries => (name, search (Path.join path name) t) :: searchEach path entries

end

/-- Where the path of a reader at `here` starts. -/
def startOf (here : Path) (path : String) : Path :=
  if Path.isAbsolute path then [] else here

/-- Whether there is a directory at the end of a row of names. -/
def hasDirectory (root : FileTree) (path : Path) : Bool :=
  (root.get? path).any isDirectory

/-- Follow steps from a place that exists. The root is above itself. -/
def walk (root : FileTree) (here : Path) : Path → Except Fault Path
  | [] => .ok here
  | step :: steps =>
    if !root.hasDirectory here then .error .notDirectory
    else if Path.nameLimit < step.utf8ByteSize then .error .nameTooLong
    else if step = "." then root.walk here steps
    else if step = ".." then root.walk here.dropLast steps
    else if (root.get? (here ++ [step])).isSome then root.walk (here ++ [step]) steps
    else .error .notFound

/-- What is at a path, to a reader at `here`. -/
def locate? (root : FileTree) (here : Path) (path : String) : Option FileTree := do
  if (Path.textFault? path).isSome then none
  else
    let t ← root.get? (← (root.walk (startOf here path) (Path.steps path)).toOption)
    if Path.namesDirectory path && !t.isDirectory then none else some t

/-- Make one directory, where everything before the last step has to be there. -/
def makeOne (root : FileTree) (here : Path) (steps : Path) : Except Fault FileTree :=
  match steps.getLast? with
  | none => .error .fileExists
  | some last =>
    match root.walk here steps.dropLast with
    | .error fault => .error fault
    | .ok above =>
      if !root.hasDirectory above then .error .notDirectory
      else if Path.nameLimit < last.utf8ByteSize then .error .nameTooLong
      else if last = "." || last = ".." || (root.get? (above ++ [last])).isSome then
        .error .fileExists
      else .ok (root.put (above ++ [last]) empty)

/-- Whether steps lead to a directory. -/
def leadsToDirectory (root : FileTree) (here : Path) (steps : Path) : Bool :=
  match root.walk here steps with
  | .error _ => false
  | .ok there => root.hasDirectory there

/-- Make a directory, given its steps and after them those of the directories
above it. One that is there is as good as one that is made. What is missing
above it is made first, and only then: where the first attempt fails for any
other reason nothing is made. -/
def makeWithin (root : FileTree) (here : Path) : List Path → Except Fault FileTree
  | [] => .ok root
  | steps :: above =>
    match root.makeOne here steps with
    | .ok made => .ok made
    | .error .notFound =>
      match root.makeWithin here above with
      | .error fault => .error fault
      | .ok root' =>
        match root'.makeOne here steps with
        | .ok made => .ok made
        | .error fault => if root'.leadsToDirectory here steps then .ok root' else .error fault
    | .error fault => if root.leadsToDirectory here steps then .ok root else .error fault

/-- Make the directory at a path, to a reader at `here`, and tell where it is. -/
def makeDirectory (root : FileTree) (here : Path) (path : String) :
    Except Fault (FileTree × Path) :=
  match Path.textFault? path with
  | some fault => .error fault
  | none =>
    let start := startOf here path
    let steps := Path.steps path
    match root.makeWithin start (steps :: Path.above steps) with
    | .error fault => .error fault
    | .ok root' => (root'.walk start steps).map fun there => (root', there)

mutual

/-- A tree and all below it by path, where the tree itself is at `here`. -/
def entriesFrom (here : Path) : FileTree → List (Path × Entry)
  | .file text => [(here, .file text)]
  | .directory entries => (here, .directory) :: entriesBelow here entries

def entriesBelow (here : Path) : List (String × FileTree) → List (Path × Entry)
  | [] => []
  | (name, t) :: entries => entriesFrom (here ++ [name]) t ++ entriesBelow here entries

end

/-- The directory at a path in a tree. -/
def directoryAt (root : FileTree) (path : Path) : Directory :=
  match root with
  | .directory entries => ⟨path, entriesBelow [] entries⟩
  | .file _ => ⟨path, []⟩

/-- Add an entry of a directory to a tree. -/
def addEntry (t : FileTree) : Path × Entry → FileTree
  | (path, .file text) => t.put path (.file text)
  | (path, .directory) => if (t.get? path).isSome then t else t.put path empty
  | (_, .fullDevice) => t

/-- The tree that a directory is in. -/
def ofDirectory (d : Directory) : FileTree :=
  d.entries.foldl addEntry empty

end FileTree
end ClassCompiler
