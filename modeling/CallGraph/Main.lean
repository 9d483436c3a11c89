import CallGraph.Program

namespace CallGraph.Disk

/-- The content of a file; the path is noted if it cannot be read. -/
def loadFile (denied : IO.Ref (List Path)) (path : Path) (read : IO ByteArray) : IO Tree := do
  match ← read.toBaseIO with
  | .ok bytes => return .file bytes.data.toList
  | .error _ =>
    denied.modify (path :: ·)
    return .file []

/-- Reads what stands at an entry of a directory and below it. What is neither a file nor a
directory is taken for a link. -/
partial def load (denied : IO.Ref (List Path)) (parent : Path) (entry : IO.FS.DirEntry) :
    IO (Bytes × Tree) := do
  let name := Bytes.ofString entry.fileName
  let path := parent.join name
  match (← entry.path.symlinkMetadata).type with
  | .file => return (name, ← loadFile denied path (IO.FS.readBinFile entry.path))
  | .dir =>
    match ← entry.path.readDir.toBaseIO with
    | .ok entries => return (name, .dir true (← entries.toList.mapM (load denied path)))
    | .error _ => return (name, .dir false [])
  | _ => return (name, .link ⟨[]⟩)

/-- Reads what the root of a scan leads to, if there is anything. -/
def loadRoot (denied : IO.Ref (List Path)) (root : String) : IO (Option Tree) := do
  let path := Path.ofString root
  let .ok real ← (IO.FS.realPath root).toBaseIO | return none
  let .ok data ← real.metadata.toBaseIO | return none
  match data.type with
  | .file => return some (← loadFile denied path (IO.FS.readBinFile real))
  | .dir =>
    match ← real.readDir.toBaseIO with
    | .ok entries => return some (.dir true (← entries.toList.mapM fun e => load denied path e))
    | .error _ => return some (.dir false [])
  | _ => return some .emptyDir

/-- A tree in which the path leads to the node. -/
def mount (path : Path) (node : Tree) : Except IoError Tree := do
  let t ← Tree.emptyDir.makeDirs path.route.steps
  return t.set (← t.lookup true path) node

/-- The part of the disk that a scan of the root reads. -/
def tree (denied : IO.Ref (List Path)) (root : String) : IO Tree := do
  match ← loadRoot denied root with
  | none => return .emptyDir
  | some node => match mount (.ofString root) node with
    | .ok t => return t
    | .error _ => return .emptyDir

/-- Runs a program on the disk: the files are read first, and the snapshot is written last. -/
def run (program : Program) (args : List String) : IO Program.Outcome := do
  let denied ← IO.mkRef []
  let t ← match CommandLine.parse args with
    | .error _ => pure .emptyDir
    | .ok arguments => tree denied arguments.root
  let paths ← denied.get
  let (outcome, t) := program.run args 1 (paths.contains ·) t
  if outcome.exitCode = 0 ∧ (CommandLine.parse args).isOk then
    if let .ok content := t.read Program.defaultOutput then
      IO.FS.writeBinFile Program.defaultOutput.text ⟨content.toArray⟩
  return outcome

end CallGraph.Disk

/-- The name under which the program is called says which of the two it is. -/
def main (args : List String) : IO UInt32 := do
  let name := (← IO.appPath).fileName.getD ""
  let program := (CallGraph.Program.ofName? name).getD .graph
  let outcome ← CallGraph.Disk.run program args
  IO.print outcome.stdout
  IO.eprint outcome.stderr
  return .ofNat outcome.exitCode
