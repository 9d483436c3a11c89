import CallGraph.Files.Walk
import CallGraph.Graph
import CallGraph.Record.Schema
import CallGraph.Scan.Build
import CallGraph.Scan.FanOut

namespace CallGraph

/-- Scans files of a tree. -/
def Tree.source (t : Tree) (language : Language) : Source := fun path =>
  match t.read path with
  | .ok content => .ok (.ofContent language path content)
  | .error cause => .error ⟨path, cause⟩

/-- What to scan, with how many workers, and where to write the records. -/
structure Job where
  root : Path
  language : Language
  workers : Nat
  output : Path

/-- A computation on the files below the working directory. When it fails, the files are as it left
them. -/
abbrev RunM := ExceptT RunError (StateM Tree)

namespace RunM

def lift {ε α : Type} (wrap : ε → RunError) : Except ε α → RunM α
  | .ok a => pure a
  | .error e => throw (wrap e)

/-- The source files of the job, in the order of the walk. -/
def paths (job : Job) : RunM (List Path) := do
  lift (.collect job.language) ((← get).collect job.language job.root)

/-- Opens the file, which empties it, and writes the snapshot. -/
def write (output : Path) (snapshot : Snapshot) : RunM Unit := do
  let (t, loc) ← lift (fun cause => .write ⟨output, cause⟩) ((← get).create output)
  set t
  modify (·.set loc (.file (Bytes.ofString snapshot.text)))

end RunM

/-- The graph, and a record for each node. -/
def Build.result (b : Build) : Graph × Snapshot := (b.graph, .graph (b.graph.records b.files))

/-- The report, and its records. -/
def FanOut.result (r : FanOut) : FanOut × Snapshot := (r, .files r.records)

namespace Job

/-- Makes a snapshot of the source files and writes it. -/
def run {α : Type} (job : Job) (make : Tree → List Path → Except RunError (α × Snapshot)) :
    RunM (α × Snapshot) := do
  let paths ← RunM.paths job
  let made ← RunM.lift id (make (← get) paths)
  RunM.write job.output made.2
  return made

/-- Builds the graph of all source files, in a given way, and writes its records. One file that
cannot be read ends the run. -/
def graphWith (job : Job) (build : Source → List Path → Except ReadError Build)
    (source : Tree → Source) : RunM (Graph × Snapshot) :=
  job.run fun t paths => Build.result <$> (build (source t) paths).mapError .build

def graph (job : Job) (policy : Policy) (source : Tree → Source) : RunM (Graph × Snapshot) :=
  job.graphWith (Build.parallel policy) source

/-- Writes a record for each source file, gathered in a given way. Files that cannot be read are
left out. -/
def filesWith (job : Job) (gather : Source → List Path → FanOut) (source : Tree → Source) :
    RunM (FanOut × Snapshot) :=
  job.run fun t paths => .ok (gather (source t) paths).result

def files (job : Job) (source : Tree → Source) : RunM (FanOut × Snapshot) :=
  job.filesWith (FanOut.run · · job.workers) source

end Job
end CallGraph
