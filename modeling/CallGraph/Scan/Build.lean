import CallGraph.Graph
import CallGraph.SourceFile

namespace CallGraph

/-- A graph and the files that went into it. -/
structure Build where
  graph : Graph
  files : List SourceFile

/-- A scan that has come to its end: the place of its path in the list, and what came of it. -/
structure Completed where
  place : Nat
  result : Except ReadError ScannedFile

namespace Completed

/-- The scans of some paths, in the order of the paths. -/
def all (source : Source) (paths : List Path) : List Completed :=
  paths.zipIdx.map fun p => ⟨p.2, source p.1⟩

/-- The scanned files in the order of their places, in whatever order the scans came to their end.
If some failed, the first of those to end is reported. -/
def gather (scans : List Completed) : Except ReadError (List ScannedFile) := do
  let files ← scans.mapM fun s => (fun f => (s.place, f)) <$> s.result
  return (files.mergeSort fun a b => decide (a.1 ≤ b.1)).map (·.2)

end Completed

namespace Build

/-- Merges files in order. -/
def ofScanned (policy : Policy) (files : List ScannedFile) : Build :=
  ⟨files.foldl Graph.mergeFile (.empty policy), files.map (·.file)⟩

/-- Merges files whose scans came to their end in some order. -/
def ofCompleted (policy : Policy) (scans : List Completed) : Except ReadError Build :=
  ofScanned policy <$> Completed.gather scans

/-- Scans all files, then merges them. -/
def parallel (policy : Policy) (source : Source) (paths : List Path) : Except ReadError Build :=
  ofCompleted policy (Completed.all source paths)

/-- Adds a file after the others. -/
def add (b : Build) (f : ScannedFile) : Build := ⟨b.graph.mergeFile f, b.files ++ [f.file]⟩

/-- Scans and merges one file after the other. -/
def sequential (policy : Policy) (source : Source) (paths : List Path) : Except ReadError Build :=
  paths.foldlM (fun b path => b.add <$> source path) ⟨.empty policy, []⟩

end Build
end CallGraph
