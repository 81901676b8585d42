import ClassCompiler.Codegen.Unit
import ClassCompiler.Output.Directory

/-!
# Writing the assembly of a program

Each unit has a file of its own, and the tables of the program have one more.
The units share one count of temporary labels. A unit that fails takes its file
with it: units before it keep theirs, and nothing after it is written.

Text waits in a buffer before it reaches a device, so on a device without room
a failure of the generator comes first as long as the text before it fits in
the buffer.

Key definitions: `Options`, `generateUnit`, `generateTables`, `generateAll`.
-/

namespace ClassCompiler

structure Options where
  outputDir : String
  allowUnresolved : Bool
  comments : Bool

namespace Options

def default : Options := ⟨"output", false, true⟩

/-- The written path of an output file. -/
def path (o : Options) (file : String) : String :=
  Path.join o.outputDir file

/-- Create an output file. -/
def create (o : Options) (d : Directory) (file : String) : Except Fault Directory :=
  match Path.textFault? (o.path file) with
  | some fault => .error fault
  | none => d.create file

end Options

/-- Bytes of text that are held back from a device. -/
def bufferSize : Nat := 8192

namespace Emission

/-- What comes of writing an emission to a device without room. -/
def onFullDevice (comments : Bool) (e : Emission α) : Except Error String :=
  if bufferSize < e.lines.size comments then .error (.writing .deviceFull)
  else
    match e.text comments with
    | .error err => .error err
    | .ok text => if text = "" then .ok text else .error (.writing .deviceFull)

/-- What comes of writing an emission to a file that has been created. -/
def writtenTo (entry : Option Entry) (comments : Bool) (e : Emission α) : Except Error String :=
  match entry with
  | some .fullDevice => e.onFullDevice comments
  | _ => e.text comments

end Emission

/-- An error in writing a file names the file. -/
def Error.inFile (path : String) : Error → Error
  | .writing fault => .output path fault
  | e => e

/-- The state of a run: the output directory and the next temporary label. -/
structure Output where
  directory : Directory
  nextLabel : Nat

/-- Write the file of a unit. If that fails the file is removed. -/
def generateUnit (o : Options) (layout : Layout) (out : Output) (u : CompilationUnit) :
    Output × Except Error String :=
  let file := Symbol.unitFile u.qualifiedName
  let path := out.directory.pathOf file
  match o.create out.directory file with
  | .error fault => (out, .error (.output (o.path file) fault))
  | .ok d =>
    let e := u.emit layout out.nextLabel
    match e.writtenTo (d.get? path) o.comments with
    | .error err => (⟨d.remove path, e.nextLabel⟩, .error (err.inFile (o.path file)))
    | .ok text => (⟨d.write path text, e.nextLabel⟩, .ok (o.path file))

/-- The tables as an emission; they have no temporary labels and never fail. -/
def Layout.emitTables (l : Layout) : Emit Unit :=
  Emit.lines l.tablesListing

/-- Write the file of the tables. -/
def generateTables (o : Options) (layout : Layout) (d : Directory) :
    Directory × Except Error String :=
  let file := Symbol.tablesFile
  let path := d.pathOf file
  match o.create d file with
  | .error fault => (d, .error (.output (o.path file) fault))
  | .ok d =>
    match (layout.emitTables 0).writtenTo (d.get? path) o.comments with
    | .error err => (d, .error (err.inFile (o.path file)))
    | .ok text => (d.write path text, .ok (o.path file))

/-- The files that the program of the units is written to. -/
def outputFiles (us : List CompilationUnit) : List String :=
  us.map (fun u => Symbol.unitFile u.qualifiedName) ++ [Symbol.tablesFile]

/-- Write the files of units in order, up to the first that fails. -/
def generateUnits (o : Options) (layout : Layout) (out : Output) :
    List CompilationUnit → Output × Except Error (List String)
  | [] => (out, .ok [])
  | u :: us =>
    match generateUnit o layout out u with
    | (out, .error e) => (out, .error e)
    | (out, .ok path) =>
      match generateUnits o layout out us with
      | (out, .error e) => (out, .error e)
      | (out, .ok paths) => (out, .ok (path :: paths))

/-- Write all files of a program, the tables last. -/
def generateAll (o : Options) (layout : Layout) (us : List CompilationUnit) (d : Directory) :
    Directory × Except Error (List String) :=
  match generateUnits o layout ⟨d, 0⟩ us with
  | (out, .error e) => (out.directory, .error e)
  | (out, .ok paths) =>
    match generateTables o layout out.directory with
    | (d, .error e) => (d, .error e)
    | (d, .ok path) => (d, .ok (paths ++ [path]))

end ClassCompiler
