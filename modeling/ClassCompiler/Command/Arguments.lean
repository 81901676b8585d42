/-!
# Command line arguments

A command line is a command with options and inputs. Options have a long name
and may have a letter; letters can be joined, and a value may follow its option
as the next argument or be attached to it, with or without an equals sign. Two
dashes alone end the options. An option that is not meant to be repeated may
not be, and no value and no input is empty.

The first thing that decides the outcome does so: a request for help before a
mistake is answered, one after it is not.

Key definitions: `OptionSpec`, `Parsed`, `Scan`, `scanArguments`, `Command`, `Command.parse`.
-/

namespace ClassCompiler

/-- What an option is for. A counted option may be repeated. -/
inductive OptionKind where
  | flag
  | counted
  | valued
  | help
  | version
deriving DecidableEq

structure OptionSpec where
  long : String
  short : Option Char
  kind : OptionKind

/-- The options given, each with its value (a flag has none), and the inputs. -/
structure Parsed where
  options : List (String × String)
  inputs : List String

namespace Parsed

def empty : Parsed := ⟨[], []⟩

def has (p : Parsed) (long : String) : Bool :=
  (p.options.lookup long).isSome

def value? (p : Parsed) (long : String) : Option String :=
  p.options.lookup long

/-- Note an option; only a counted one may come again. -/
def note (p : Parsed) (o : OptionSpec) (value : String) : Option Parsed :=
  if o.kind ≠ .counted && p.has o.long then none
  else some { p with options := p.options ++ [(o.long, value)] }

/-- Note the value of an option. -/
def noteValue (p : Parsed) (o : OptionSpec) (value : String) : Option Parsed :=
  if value = "" then none else p.note o value

def addInput (p : Parsed) (input : String) : Option Parsed :=
  if input = "" then none else some { p with inputs := p.inputs ++ [input] }

end Parsed

/-- What reading arguments comes to. -/
inductive Scan (α : Type) where
  | done (result : α)
  | mistake
  | help
  | version

namespace Scan

def ofOption : Option α → Scan α
  | some a => .done a
  | none => .mistake

def bind (s : Scan α) (f : α → Scan β) : Scan β :=
  match s with
  | .done a => f a
  | .mistake => .mistake
  | .help => .help
  | .version => .version

end Scan

/-- Whether an argument is written like an option. A dash alone is an input. -/
def looksLikeOption (argument : String) : Bool :=
  match argument.toList with
  | '-' :: _ :: _ => true
  | _ => false

/-- The value that the next argument gives to an option that still needs one. -/
def awaitValue (p : Parsed) (o : OptionSpec) : List String → Scan (Parsed × List String)
  | [] => .mistake
  | argument :: rest =>
    if looksLikeOption argument then .mistake
    else (Scan.ofOption (p.noteValue o argument)).bind fun p => .done (p, rest)

/-- A long option, without its dashes, and what follows it. -/
def scanLong (specs : List OptionSpec) (p : Parsed) (text : List Char) (rest : List String) :
    Scan (Parsed × List String) :=
  let name := String.ofList (text.takeWhile (· != '='))
  let attached := match text.dropWhile (· != '=') with
    | [] => none
    | _ :: value => some (String.ofList value)
  match specs.find? fun o => o.long = name with
  | none => .mistake
  | some o =>
    match o.kind, attached with
    | .valued, some value =>
      (Scan.ofOption (p.noteValue o value)).bind fun p => .done (p, rest)
    | .valued, none => awaitValue p o rest
    | _, some _ => .mistake
    | .help, none => .help
    | .version, none => .version
    | _, none => (Scan.ofOption (p.note o "")).bind fun p => .done (p, rest)

/-- Joined option letters, and what follows them. -/
def scanShort (specs : List OptionSpec) (p : Parsed) (letters : List Char) (rest : List String) :
    Scan (Parsed × List String) :=
  match letters with
  | [] => .done (p, rest)
  | c :: cs =>
    match specs.find? fun o => o.short = some c with
    | none => .mistake
    | some o =>
      match o.kind with
      | .help => .help
      | .version => .version
      | .valued =>
        match cs with
        | [] => awaitValue p o rest
        | '=' :: value =>
          (Scan.ofOption (p.noteValue o (String.ofList value))).bind fun p => .done (p, rest)
        | value =>
          (Scan.ofOption (p.noteValue o (String.ofList value))).bind fun p => .done (p, rest)
      | _ =>
        match p.note o "" with
        | none => .mistake
        | some p => scanShort specs p cs rest

/-- Inputs only, after two dashes. -/
def scanInputs (p : Parsed) : List String → Scan Parsed
  | [] => .done p
  | input :: rest => (Scan.ofOption (p.addInput input)).bind fun p => scanInputs p rest

/-- One option with its value, if the first argument is one. -/
def scanOption (specs : List OptionSpec) (p : Parsed) (argument : String) (rest : List String) :
    Option (Scan (Parsed × List String)) :=
  match argument.toList with
  | '-' :: '-' :: c :: text => some (scanLong specs p (c :: text) rest)
  | '-' :: '-' :: [] => none
  | '-' :: c :: letters => some (scanShort specs p (c :: letters) rest)
  | _ => none

/-- The arguments of a command, at most `bound` of them. -/
def scanArguments (specs : List OptionSpec) : Nat → Parsed → List String → Scan Parsed
  | _, p, [] => .done p
  | 0, _, _ => .mistake
  | bound + 1, p, argument :: rest =>
    if argument = "--" then scanInputs p rest
    else
      match scanOption specs p argument rest with
      | some scan => scan.bind fun (p, rest) => scanArguments specs bound p rest
      | none => (Scan.ofOption (p.addInput argument)).bind fun p => scanArguments specs bound p rest

/-- What the program is asked to do. -/
inductive Command where
  | check (inputs : List String) (allowUnresolved : Bool)
  | compile (inputs : List String) (outputDir : Option String) (allowUnresolved : Bool)
      (layout : Option String) (comments : Bool)
  | layout (inputs : List String) (allowUnresolved : Bool)
  | dump (inputs : List String) (detailed : Bool)

namespace Command

def verbose : OptionSpec := ⟨"verbose", some 'v', .counted⟩

def help : OptionSpec := ⟨"help", some 'h', .help⟩

def allowUnresolved : OptionSpec := ⟨"allow-unresolved", none, .flag⟩

/-- The options before the name of the command. -/
def commonOptions : List OptionSpec := [verbose, help, ⟨"version", some 'V', .version⟩]

/-- The options of a command; none if there is no such command. -/
def options? : String → Option (List OptionSpec)
  | "check" => some [verbose, help, allowUnresolved]
  | "compile" => some [verbose, help, allowUnresolved, ⟨"output", some 'o', .valued⟩,
      ⟨"layout", none, .valued⟩, ⟨"no-comments", none, .flag⟩]
  | "layout" => some [verbose, help, allowUnresolved]
  | "dump" => some [verbose, help, ⟨"detailed", some 'd', .flag⟩]
  | _ => none

/-- The command with its arguments. Every command needs an input. -/
def ofParsed? (name : String) (p : Parsed) : Option Command :=
  if p.inputs.isEmpty then none
  else
    match name with
    | "check" => some (.check p.inputs (p.has "allow-unresolved"))
    | "compile" =>
      some (.compile p.inputs (p.value? "output") (p.has "allow-unresolved") (p.value? "layout")
        (!p.has "no-comments"))
    | "layout" => some (.layout p.inputs (p.has "allow-unresolved"))
    | "dump" => some (.dump p.inputs (p.has "detailed"))
    | _ => none

/-- A request for help names at most one command. -/
def helpScan : List String → Scan Command
  | [] => .help
  | [name] => if (options? name).isSome || name = "help" then .help else .mistake
  | _ => .mistake

/-- The command of a whole command line, at most `bound` arguments of it. -/
def parseWithin : Nat → Parsed → List String → Scan Command
  | 0, _, _ => .mistake
  | _, _, [] => .mistake
  | bound + 1, p, argument :: rest =>
    match scanOption commonOptions p argument rest with
    | some scan => scan.bind fun (p, rest) => parseWithin bound p rest
    | none =>
      if argument = "help" then helpScan rest
      else
        match options? argument with
        | none => .mistake
        | some specs =>
          (scanArguments specs rest.length .empty rest).bind fun p =>
            Scan.ofOption (ofParsed? argument p)

def parse (arguments : List String) : Scan Command :=
  parseWithin (arguments.length + 1) .empty arguments

end Command
end ClassCompiler
