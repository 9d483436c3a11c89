import CallGraph.Record.Basic

namespace CallGraph

namespace Batch

/-- The number of batches: without workers there is one. -/
def count (workers : Nat) : Nat := max 1 workers

/-- The number of items in every batch but the last. -/
def size (items workers : Nat) : Nat := items / count workers

def start (items workers i : Nat) : Nat := i * size items workers

/-- The last batch takes what is left over as well. -/
def stop (items workers i : Nat) : Nat :=
  if i + 1 = count workers then items else start items workers i + size items workers

/-- The items from one place up to another. -/
def slice {α : Type} (items : List α) (start stop : Nat) : List α :=
  (items.drop start).take (stop - start)

/-- Shares items out to workers in order. -/
def partition {α : Type} (items : List α) (workers : Nat) : List (List α) :=
  (List.range (count workers)).map fun i =>
    slice items (start items.length workers i) (stop items.length workers i)

end Batch

/-- What a worker sends for a path. -/
inductive Message
  | record (r : FileRecord)
  | skipped (path : Path)
  deriving DecidableEq

namespace Message

def ofPath (source : Source) (path : Path) : Message :=
  match source path with
  | .ok f => record (.ofScanned f)
  | .error _ => skipped path

def record? : Message → Option FileRecord
  | record r => some r
  | skipped _ => none

def skipped? : Message → Option Path
  | record _ => none
  | skipped path => some path

end Message

/-- The records of the files that could be read, and the paths of the others. -/
structure FanOut where
  records : List FileRecord
  skipped : List Path
  deriving DecidableEq

namespace FanOut

/-- Files the messages as they arrive. -/
def ofMessages (ms : List Message) : FanOut :=
  ⟨ms.filterMap Message.record?, ms.filterMap Message.skipped?⟩

/-- Shares the paths out to workers and gathers one message for each path, worker by worker. -/
def run (source : Source) (paths : List Path) (workers : Nat) : FanOut :=
  .ofMessages ((Batch.partition paths workers).flatMap (·.map (Message.ofPath source)))

/-- The same report in an order that does not depend on how the workers took turns. -/
def sort (r : FanOut) : FanOut :=
  ⟨FileRecord.sort r.records, r.skipped.mergeSort fun a b => decide (a.bytes ≤ b.bytes)⟩

end FanOut
end CallGraph
