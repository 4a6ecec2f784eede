/-!
The command line. Arguments are taken from left to right: flags by their long name or by letters
that may share one dash, and one file. The first argument that is refused, or that asks for help or
the version, decides the answer.
-/

namespace BasicScript

/-- What the command line asks for. -/
structure CommandLine where
  file : Option String
  interactive : Bool
  pretty : Bool
  verbose : Nat
deriving Repr, DecidableEq, Inhabited

namespace CommandLine

inductive Flag where
  | interactive | pretty | verbose | help | version
deriving Repr, DecidableEq

namespace Flag

def all : List Flag :=
  [interactive, pretty, verbose, help, version]

def long : Flag → String
  | interactive => "interactive"
  | pretty => "pretty"
  | verbose => "verbose"
  | help => "help"
  | version => "version"

def letter : Flag → Option Char
  | interactive => some 'i'
  | pretty => none
  | verbose => some 'v'
  | help => some 'h'
  | version => some 'V'

def ofLong? (name : String) : Option Flag :=
  all.find? fun f => f.long == name

def ofLetter? (c : Char) : Option Flag :=
  all.find? fun f => f.letter == some c

end Flag

/-- Why a command line is not carried out. -/
inductive Refusal where
  | unknownArgument (argument : String)
  | repeatedFlag (flag : Flag)
  | flagWithValue (flag : Flag) (value : String)
  | help
  | version
deriving Repr, DecidableEq

/-- The verbosity that is counted up to. -/
def maxVerbose : Nat := 255

def programName : String := "xbasic"

def versionText : String := "0.1.0"

/-- Nothing asked for yet. -/
def empty : CommandLine :=
  ⟨none, false, false, 0⟩

/-- Takes a flag. Only the verbosity may be given more than once. -/
def setFlag (c : CommandLine) : Flag → Except Refusal CommandLine
  | .interactive =>
    if c.interactive then .error (.repeatedFlag .interactive) else .ok { c with interactive := true }
  | .pretty => if c.pretty then .error (.repeatedFlag .pretty) else .ok { c with pretty := true }
  | .verbose => .ok { c with verbose := min (c.verbose + 1) maxVerbose }
  | .help => .error .help
  | .version => .error .version

/-- Takes the file, which may be given once. -/
def setFile (c : CommandLine) (path : String) : Except Refusal CommandLine :=
  match c.file with
  | some _ => .error (.unknownArgument path)
  | none => .ok { c with file := some path }

/-- Takes a long flag, given by what stands behind its two dashes; no flag has a value. -/
def setLong (c : CommandLine) (name : List Char) : Except Refusal CommandLine :=
  let key := name.takeWhile (· != '=')
  match Flag.ofLong? (String.ofList key) with
  | none => .error (.unknownArgument ("--" ++ String.ofList key))
  | some flag =>
    match name.drop key.length with
    | [] => c.setFlag flag
    | _ :: value => .error (.flagWithValue flag (String.ofList value))

/-- Takes the letters behind one dash. -/
def setLetters (c : CommandLine) : List Char → Except Refusal CommandLine
  | [] => .ok c
  | l :: r =>
    match Flag.ofLetter? l with
    | none => .error (.unknownArgument ("-" ++ l.toString))
    | some flag => (c.setFlag flag).bind fun c => c.setLetters r

/-- Takes one argument. -/
def setArgument (c : CommandLine) (argument : String) : Except Refusal CommandLine :=
  match argument.toList with
  | '-' :: '-' :: name => c.setLong name
  | '-' :: l :: r => c.setLetters (l :: r)
  | _ => c.setFile argument

/-- Takes arguments in turn; behind two dashes alone all are files. -/
def setAll (c : CommandLine) : List String → Except Refusal CommandLine
  | [] => .ok c
  | a :: rest =>
    if a = "--" then rest.foldlM setFile c
    else (c.setArgument a).bind fun c => c.setAll rest

def ofArguments (arguments : List String) : Except Refusal CommandLine :=
  empty.setAll arguments

/-- The shell runs when it is asked for, or when there is nothing else to do. -/
def wantsShell (c : CommandLine) : Bool :=
  c.interactive || c.file.isNone

/-- What is logged at a verbosity. -/
def logLevel (c : CommandLine) : String :=
  match c.verbose with
  | 0 => "warn"
  | 1 => "debug"
  | _ => "trace"

/-- What is told of a script whose name has the wrong ending. -/
def checkPath (path : String) : Option String :=
  if path.endsWith ".bsx" then none else some "Error: File must end with '.bsx'."

def helpLines : List String :=
  ["An interpreter for the XBasic scripting language",
    "",
    "Usage: xbasic [OPTIONS] [FILE]",
    "",
    "Arguments:",
    "  [FILE]  The .bsx script to execute",
    "",
    "Options:",
    "  -i, --interactive  Start the interactive shell (after FILE, if given)",
    "      --pretty       Render diagnostics with labelled source snippets",
    "  -v, --verbose...   Log more (-v debug, -vv trace); XBASIC_LOG overrides",
    "  -h, --help         Print help",
    "  -V, --version      Print version"]

def helpText : String :=
  String.join (helpLines.map (· ++ "\n"))

namespace Refusal

/-- How a flag is written. -/
def flagText (f : Flag) : String :=
  "--" ++ f.long

/-- What is told when a command line is not carried out. -/
def message : Refusal → String
  | unknownArgument argument => usage ("unexpected argument '" ++ argument ++ "' found")
  | repeatedFlag flag =>
    usage ("the argument '" ++ flagText flag ++ "' cannot be used multiple times")
  | flagWithValue flag value =>
    usage ("unexpected value '" ++ value ++ "' for '" ++ flagText flag ++
      "' found; no more were expected")
  | help => helpText
  | version => programName ++ " " ++ versionText ++ "\n"
where
  usage (problem : String) : String :=
    "error: " ++ problem ++
      "\n\nUsage: xbasic [OPTIONS] [FILE]\n\nFor more information, try '--help'.\n"

/-- Help and version are answers; the rest is told as an error. -/
def isAnswer : Refusal → Bool
  | help | version => true
  | _ => false

end Refusal

end CommandLine

end BasicScript
