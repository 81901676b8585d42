import ClassCompiler.Command.Run

/-!
# The program

Connects `runCommandLine` to the files, the arguments and the streams of the
machine. Nothing is decided here.
-/

namespace ClassCompiler

/-- Run an action on files; a failure of the machine gives `otherwise`. -/
def attempt (action : IO α) (otherwise : α) : IO α := do
  try action catch _ => return otherwise

def isDirectoryOnDisk (path : String) : IO Bool :=
  attempt (do return (← (← IO.FS.realPath path).metadata).type == .dir) false

def existsOnDisk (path : String) : IO Bool :=
  attempt (do return ← (← IO.FS.realPath path).pathExists) false

/-- All that is met in a directory, the entries of each directory by name.
Links are not followed. -/
partial def searchOnDisk (path : String) : IO (List Found) := do
  match ← attempt (do return some (← (← IO.FS.realPath path).readDir)) none with
  | none => return [.closed]
  | some entries =>
    let sorted := entries.toList.mergeSort fun a b => a.fileName ≤ b.fileName
    let lists ← sorted.mapM fun entry => do
      let path := Path.join path entry.fileName
      match ← attempt (do return (← entry.path.symlinkMetadata).type) .other with
      | .dir => searchOnDisk path
      | .file => return [.file path]
      | _ => return []
    return lists.flatten

/-- The path by which an output directory is known here. No name has a slash,
so that no path from the root is the same. -/
def baseOf (dir : String) : Path := [dir ++ "/"]

/-- The written path of something that is reached from an output directory. -/
def written (dir : String) (path : Path) : String :=
  if path.take 1 = baseOf dir then Path.join dir (Path.text (path.drop 1))
  else "/" ++ path.text

/-- What is on the disk at a path. The text of a file does not matter, because
files are only ever created anew. -/
def entryOnDisk (dir : String) (path : Path) : IO (Option (Path × Entry)) := do
  if ← isDirectoryOnDisk (written dir path) then return some (path, .directory)
  else if ← existsOnDisk (written dir path) then return some (path, .file "")
  else return none

/-- The output directory as it is on the disk, as far as it matters for the
named files: they and the directories they are in. -/
def directoryOnDisk (dir : String) (files : List String) : IO Directory := do
  let paths := files.flatMap fun file =>
    let path := (Directory.mk (baseOf dir) []).pathOf file
    (List.range path.length).map fun i => path.take (i + 1)
  return ⟨baseOf dir, ← paths.filterMapM (entryOnDisk dir)⟩

/-- Make an output directory, if it is not there, and look at it. -/
def openOnDisk (dir : String) (files : List String) : IO (Except Fault Directory) := do
  if ← attempt (do IO.FS.createDirAll dir; isDirectoryOnDisk dir) false then
    return .ok (← directoryOnDisk dir files)
  else return .error (if ← existsOnDisk dir then .fileExists else .notDirectory)

/-- Bring the named files of an output directory to the disk: those that have
a text now are written, those that are gone are removed. -/
def commitToDisk (dir : String) (files : List String) (d : Directory) : IO PUnit := do
  for (path, text) in d.allFiles do
    if text != "" then IO.FS.writeFile (written dir path) text
  for file in files do
    let path := d.pathOf file
    if (d.get? path).isNone && (← existsOnDisk (written dir path)) then
      IO.FS.removeFile (written dir path)

/-- The files of the machine. -/
def machine : FileSystem IO where
  isDirectory := isDirectoryOnDisk
  read? path := attempt (some <$> IO.FS.readFile path) none
  search := searchOnDisk
  openDirectory := openOnDisk
  commit := commitToDisk

end ClassCompiler

open ClassCompiler in
def main (arguments : List String) : IO UInt32 := do
  let outcome ← runCommandLine machine arguments
  IO.print outcome.stdout
  match outcome with
  | .failed f => IO.eprintln ("Error: " ++ f.message)
  | .misused => IO.eprint usage
  | .printed _ => pure ()
  return outcome.exitCode.toUInt32
