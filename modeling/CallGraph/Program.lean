import CallGraph.CommandLine
import CallGraph.Run

namespace CallGraph

/-- The two programs: one writes the graph, the other the records of the files. -/
inductive Program
  | graph
  | files
  deriving DecidableEq

namespace Program

def name : Program → String
  | graph => "refscan"
  | files => "refscan-files"

/-- The name in front of an error in the log. -/
def logName : Program → String
  | graph => "refscan"
  | files => "refscan_files"

def ofName? (s : String) : Option Program := [graph, files].find? (·.name == s)

def defaultOutput : Path := .ofString "data.json"

/-- What a program leaves besides files. -/
structure Outcome where
  exitCode : Nat
  stdout : String
  stderr : String
  deriving DecidableEq

/-- The scan for given arguments; its result is what goes to the standard output. Files at denied
paths are there and cannot be read. -/
def scan (p : Program) (args : Arguments) (workers : Nat) (denied : Path → Bool) : RunM String := do
  let job : Job := ⟨.ofString args.root, args.language, workers, defaultOutput⟩
  let source (t : Tree) : Source := (t.source args.language).denying denied .permissionDenied
  match p with
  | graph => return (← job.graph .preserve source).1.reportText
  | files => do
    let _ ← job.files source
    return ""

/-- A command line that leads to no scan. -/
def stopped (program : String) (s : Stop) : Outcome :=
  if s.exitCode = 0 then ⟨0, s.message program, ""⟩ else ⟨s.exitCode, "", s.message program⟩

def scanned (p : Program) : Except RunError String → Outcome
  | .ok out => ⟨0, out, ""⟩
  | .error e => ⟨1, "", "ERROR " ++ p.logName ++ ": " ++ Terminal.logged e.message ++ "\n"⟩

/-- Runs a program on a command line in a directory. -/
def run (p : Program) (args : List String) (workers : Nat) (denied : Path → Bool) (t : Tree) :
    Outcome × Tree :=
  match CommandLine.parse args with
  | .error s => (stopped p.name s, t)
  | .ok arguments =>
    let (result, t) := (p.scan arguments workers denied).run t
    (p.scanned result, t)

end Program
end CallGraph
