import CallGraph.Path
import CallGraph.Text.Basic
import CallGraph.Text.Terminal

namespace CallGraph

/-- What a command line asks for. -/
structure Arguments where
  root : String
  language : Language
  deriving DecidableEq

/-- A value that the command line has to give. -/
inductive Parameter
  | root
  | language
  deriving DecidableEq

def Parameter.name : Parameter → String
  | root => "<ROOT>"
  | language => "<LANGUAGE>"

/-- An option; none of them takes a value. -/
inductive Flag
  | help
  | version
  deriving DecidableEq

namespace Flag

def all : List Flag := [help, version]

def name : Flag → String
  | help => "help"
  | version => "version"

def letter : Flag → Char
  | help => 'h'
  | version => 'V'

def option (f : Flag) : String := "--" ++ f.name

def ofName? (name : String) : Option Flag := all.find? (·.name == name)

def ofLetter? (letter : Char) : Option Flag := all.find? (·.letter == letter)

/-- The flag most like a name, if it is like it at all; the later one of two. -/
def likest? (name : List Char) : Option Flag :=
  let likeness (f : Flag) := Text.similarity name f.name.toList
  (all.filter fun f => 0.7 < likeness f).foldl (fun best f => match best with
    | none => some f
    | some b => some (if likeness f < likeness b then b else f)) none

end Flag

/-- Why a command line does not lead to a scan. -/
inductive Stop
  | asked (flag : Flag)
  | unknownOption (option : String)
  /-- A value attached to a flag, with the number of values before it. -/
  | attachedValue (flag : Flag) (value : String) (before : Nat)
  | extraValue (value : String)
  | emptyRoot
  | badLanguage (value : String)
  | missing (parameters : List Parameter)
  deriving DecidableEq

namespace CommandLine

/-- How an argument reads as long as options are taken. -/
inductive Argument
  | value
  | endOfOptions
  | flag (flag : Flag)
  | attached (flag : Flag) (value : String)
  | unknown (option : String)
  deriving DecidableEq

/-- Only the first letter of a cluster of short options counts, since each known one ends the
reading. -/
def Argument.ofString (s : String) : Argument :=
  match s.toList with
  | ['-', '-'] => endOfOptions
  | '-' :: '-' :: rest =>
    let name := String.ofList (rest.takeWhile (· != '='))
    match Flag.ofName? name, rest.dropWhile (· != '=') with
    | some f, [] => flag f
    | some f, _ :: rest => attached f (.ofList rest)
    | none, _ => unknown ("--" ++ name)
  | '-' :: letter :: _ =>
    match Flag.ofLetter? letter with
    | some f => flag f
    | none => unknown (.ofList ['-', letter])
  | _ => value

/-- The values taken so far, at most two, and whether options are still taken. -/
structure State where
  values : List String
  optionsEnded : Bool

/-- The last value is checked when a further one is taken, or when the reading comes to its end. -/
def check : List String → Except Stop Unit
  | [root] => if root = "" then .error .emptyRoot else .ok ()
  | [_, language] =>
    if (Language.ofName? language).isNone then .error (.badLanguage language) else .ok ()
  | _ => .ok ()

def takeValue (s : State) (arg : String) : Except Stop State := do
  if 2 ≤ s.values.length then throw (.extraValue arg)
  check s.values
  return { s with values := s.values ++ [arg] }

def step (s : State) (arg : String) : Except Stop State :=
  if s.optionsEnded then takeValue s arg
  else match Argument.ofString arg with
    | .value => takeValue s arg
    | .endOfOptions => .ok { s with optionsEnded := true }
    | .flag f => do check s.values; throw (.asked f)
    | .attached f value => .error (.attachedValue f value s.values.length)
    | .unknown option => .error (.unknownOption option)

/-- Reads the arguments after the name of the program. An argument is text: a root that is not valid
UTF-8, as a path may be, is outside the program. -/
def parse (args : List String) : Except Stop Arguments := do
  let s ← args.foldlM step ⟨[], false⟩
  check s.values
  match s.values with
  | [root, language] => match Language.ofName? language with
    | some language => return ⟨root, language⟩
    | none => throw (.badLanguage language)
  | [_] => throw (.missing [.language])
  | _ => throw (.missing [.root, .language])

/-- The name under which the program was called. -/
def programName (args : List String) : String :=
  match args.head?.bind fun arg => (Path.ofString arg).fileName? with
  | some name => Utf8.text name
  | none => "refscan"

open Terminal (marked)

def usage (program arguments : String) : String :=
  marked "Usage:" ++ " " ++ marked program ++ " " ++ arguments

def allParameters : String := "<ROOT> <LANGUAGE>"

def versionText : String := "refscan 0.1.0\n"

def helpText (program : String) : String :=
  "refscan - Lexical reference scanner for Python and PL/SQL trees: per-file metrics and weighted " ++
  "dependency graphs.\n\n" ++ usage program allParameters ++ "\n\nArguments:\n" ++
  "  <ROOT>      Root directory to scan\n" ++
  "  <LANGUAGE>  Source language: python (.py) or plsql (.pkb)\n\nOptions:\n" ++
  "  -h, --help     Print help\n  -V, --version  Print version\n"

/-- A text of the command line in quotes. -/
def cited (s : String) : String := "'" ++ marked s ++ "'"

/-- The flag that an unknown option may stand for; only options with a name stand for one. -/
def meant? (option : String) : Option Flag :=
  match option.toList with
  | '-' :: '-' :: name => Flag.likest? name
  | _ => none

end CommandLine

namespace Stop

open CommandLine Terminal

/-- Help and version are no errors. -/
def exitCode : Stop → Nat
  | asked _ => 0
  | _ => 2

/-- What is wrong. -/
def problem : Stop → String
  | asked _ => ""
  | unknownOption option => "unexpected argument " ++ cited option ++ " found\n\n  tip: " ++
    match meant? option with
    | some f => "a similar argument exists: " ++ cited f.option
    | none => "to pass " ++ cited option ++ " as a value, use " ++ cited ("-- " ++ option)
  | attachedValue f value _ =>
    "unexpected value " ++ cited value ++ " for " ++ cited f.option ++ " found; no more were expected"
  | extraValue value => "unexpected argument " ++ cited value ++ " found"
  | emptyRoot => "a value is required for '<ROOT>' but none was supplied"
  | badLanguage value =>
    "invalid value " ++ cited value ++ " for '<LANGUAGE>': " ++ Language.unsupported value
  | missing parameters =>
    "the following required arguments were not provided:" ++
      .join (parameters.map fun p => "\n  " ++ p.name)

/-- The arguments in the usage that goes with an error, if one does. -/
def usage? : Stop → Option String
  | emptyRoot | badLanguage _ => none
  | unknownOption option => some (match meant? option with
    | some f => f.option ++ " " ++ allParameters
    | none => allParameters)
  | attachedValue f _ before =>
    some (f.option ++ " " ++ if before < 2 then allParameters else "<ROOT|LANGUAGE>")
  | _ => some allParameters

/-- The message as a terminal gets it. -/
def markedMessage (program : String) : Stop → String
  | asked .help => helpText program
  | asked .version => versionText
  | s =>
    marked "error:" ++ " " ++ s.problem ++
      ((s.usage?.map fun arguments => "\n\n" ++ usage program arguments).getD "") ++
      "\n\nFor more information, try " ++ cited "--help" ++ ".\n"

def message (program : String) (s : Stop) : String := plain (s.markedMessage program)

end Stop
end CallGraph
