import ClassCompiler.Command.Arguments
import ClassCompiler.Command.FileTree
import ClassCompiler.Dispatch.Codec
import ClassCompiler.Json.Parser
import ClassCompiler.Json.Printer
import ClassCompiler.Source.Decode
import ClassCompiler.Source.Detail
import ClassCompiler.Source.Outline

/-!
# Running a command

A command reads its input files, does its work and prints what came of it. All
it needs of the world is a `FileSystem`: the one of a file tree is a plain
value, and the program itself brings the one of the machine it runs on.

Inputs are read in order and the first that cannot be read or understood ends
the run. A directory stands for the unit files below it.

Key definitions: `FileSystem`, `FileTree.system`, `Failure`, `Outcome`, `loadUnits`,
`Command.run`, `runCommandLine`.
-/

namespace ClassCompiler

/-- How a command reads and writes files. `search` lists what is met below a
directory, the entries of each directory in the order of their names.
`openDirectory` makes an output directory, if it is not there, and looks at it,
and `commit` changes it, both as far as the files with the given names go. -/
structure FileSystem (m : Type → Type) where
  isDirectory : String → m Bool
  read? : String → m (Option String)
  search : String → m (List Found)
  openDirectory : String → List String → m (Except Fault Directory)
  commit : String → List String → Directory → m PUnit

namespace FileTree

def text? : FileTree → Option String
  | .file text => some text
  | .directory _ => none

/-- The files of a tree that commands run at `here` may change. -/
def system (here : Path) : FileSystem (StateM FileTree) where
  isDirectory path := do return ((← get).locate? here path).any isDirectory
  read? path := do return ((← get).locate? here path).bind text?
  search path := do return (((← get).locate? here path).map (FileTree.search path)).getD []
  openDirectory path _ := do
    match (← get).makeDirectory here path with
    | .error fault => return .error fault
    | .ok (root, there) =>
      set root
      return .ok (root.directoryAt there)
  commit _ _ d := set (ofDirectory d)

end FileTree

/-- Why a command that was understood has failed. -/
inductive Failure where
  | unreadable (path : String)
  | unsearchable (path : String)
  | malformed (path : String)
  | rejected (error : Error)

namespace Failure

def message : Failure → String
  | .unreadable path => "cannot read " ++ path
  | .unsearchable path => "cannot walk " ++ path
  | .malformed path => path ++ " is not a valid input file"
  | .rejected e => e.message

end Failure

/-- What a run prints, and how it ends. -/
inductive Outcome where
  | printed (text : String)
  | failed (failure : Failure)
  | misused

namespace Outcome

def exitCode : Outcome → Nat
  | .printed _ => 0
  | .failed _ => 1
  | .misused => 2

def stdout : Outcome → String
  | .printed text => text
  | _ => ""

def failure? : Outcome → Option Failure
  | .failed f => some f
  | _ => none

def ofExcept (show' : α → String) : Except Failure α → Outcome
  | .ok a => .printed (show' a)
  | .error f => .failed f

end Outcome

/-- How deep the values in a unit file may nest. -/
def fileNesting : Nat := 127

section

variable {m : Type → Type} [Monad m]

/-- The units in the text of a file. A value that cannot be read spoils the
file wherever it stands. -/
def unitsOfText? (text : String) : Option (List CompilationUnit) :=
  (Json.parseReadable? (some fileNesting) text).bind CompilationUnit.fileOfJson?

/-- The layout in the text of a file. What a layout has no use for is passed
over, whether it can be read or not. -/
def layoutOfText? (text : String) : Option Layout :=
  (Json.parse? text).bind Layout.ofJson?

/-- Read a file whose text `read` understands. -/
def readWith (fs : FileSystem m) (read : String → Option α) (path : String) :
    m (Except Failure α) := do
  match ← fs.read? path with
  | none => return .error (.unreadable path)
  | some text =>
    match read text with
    | none => return .error (.malformed path)
    | some a => return .ok a

/-- The units of what was found for an input, in order. -/
def loadFound (fs : FileSystem m) (input : String) :
    List Found → m (Except Failure (List CompilationUnit))
  | [] => return .ok []
  | .closed :: _ => return .error (.unsearchable input)
  | .file path :: found => do
    match ← readWith fs unitsOfText? path with
    | .error f => return .error f
    | .ok us =>
      match ← loadFound fs input found with
      | .error f => return .error f
      | .ok rest => return .ok (us ++ rest)

/-- The units of inputs in order. -/
def loadUnits (fs : FileSystem m) : List String → m (Except Failure (List CompilationUnit))
  | [] => return .ok []
  | input :: inputs => do
    let found ← if ← fs.isDirectory input then (·.filter Found.matters) <$> fs.search input
      else pure [.file input]
    match ← loadFound fs input found with
    | .error f => return .error f
    | .ok us =>
      match ← loadUnits fs inputs with
      | .error f => return .error f
      | .ok rest => return .ok (us ++ rest)

/-- The layout in a file, if one is named. -/
def loadLayout (fs : FileSystem m) : Option String → m (Except Failure (Option Layout))
  | none => return .ok none
  | some path => return (← readWith fs layoutOfText? path).map some

/-- Compile units into a directory; the answer is the paths written. -/
def compileUnits (fs : FileSystem m) (o : Options) (given : Option Layout)
    (us : List CompilationUnit) : m (Except Failure (List String)) := do
  match prepare o given us with
  | .error e => return .error (.rejected e)
  | .ok layout =>
    match ← fs.openDirectory o.outputDir (outputFiles us) with
    | .error fault => return .error (.rejected (.output o.outputDir fault))
    | .ok d =>
      let (d, result) := generateAll o layout us d
      fs.commit o.outputDir (outputFiles us) d
      return result.mapError .rejected

namespace Command

/-- Do what a command asks for, once its units are there. -/
def runOn (fs : FileSystem m) (us : List CompilationUnit) : Command → m Outcome
  | .check _ allowUnresolved =>
    return .ofExcept (fun g => "ok: " ++ toString g.size ++ " types verified\n")
      ((ClassCompiler.check us allowUnresolved).mapError .rejected)
  | .compile _ outputDir allowUnresolved layoutFile comments => do
    match ← loadLayout fs layoutFile with
    | .error f => return .failed f
    | .ok given =>
      let o : Options := ⟨outputDir.getD Options.default.outputDir, allowUnresolved, comments⟩
      return .ofExcept Text.lines (← compileUnits fs o given us)
  | .layout _ allowUnresolved =>
    return .ofExcept (fun l => l.toJson.pretty ++ "\n")
      (((ClassCompiler.check us allowUnresolved).bind fun g => Layout.ofGraph g us).mapError
        .rejected)
  | .dump _ detailed =>
    return .printed (String.join (us.map fun u => if detailed then u.detail else u.outline))

def inputs : Command → List String
  | .check inputs _ | .compile inputs _ _ _ _ | .layout inputs _ | .dump inputs _ => inputs

def run (fs : FileSystem m) (c : Command) : m Outcome := do
  match ← loadUnits fs c.inputs with
  | .error f => return .failed f
  | .ok us => c.runOn fs us

end Command

/-- What the program answers when it is asked for help. -/
def usage : String :=
  Text.lines [
    "Usage: joosc [OPTIONS] <COMMAND>",
    "",
    "Commands:",
    "  check    Verify the type hierarchy of a program",
    "  compile  Verify a program and write one assembly file per unit",
    "  layout   Print the dispatch layout of a verified program as JSON",
    "  dump     Print the AST of every unit"]

def versionText : String := "joosc 0.1.0\n"

/-- Run the program on the arguments of its command line. -/
def runCommandLine (fs : FileSystem m) (arguments : List String) : m Outcome :=
  match Command.parse arguments with
  | .done c => c.run fs
  | .mistake => return .misused
  | .help => return .printed usage
  | .version => return .printed versionText

end

end ClassCompiler
