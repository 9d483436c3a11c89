import CallGraph.Scan.Build
import CallGraph.Scan.FanOut

namespace CallGraph

/-- The scans of some paths, each path with its place in the list. -/
structure Schedule where
  /-- Those that have not begun. -/
  waiting : List (Path × Nat)
  /-- Those under way, one to a worker. -/
  running : List (Path × Nat)
  /-- Those that have come to their end, in that order. -/
  ended : List Completed

namespace Schedule

def start (paths : List Path) : Schedule := ⟨paths.zipIdx, [], []⟩

/-- What may happen next: scans begin and end in any order, as far as there are workers. -/
inductive Step (source : Source) (workers : Nat) : Schedule → Schedule → Prop
  | begin {s : Schedule} {p : Path × Nat} {before after : List (Path × Nat)}
      (next : s.waiting = before ++ p :: after)
      (free : s.running.length < Batch.count workers) :
      Step source workers s { s with
        waiting := before ++ after
        running := p :: s.running }
  | finish {s : Schedule} {p : Path × Nat} {before after : List (Path × Nat)}
      (next : s.running = before ++ p :: after) :
      Step source workers s { s with
        running := before ++ after
        ended := s.ended ++ [⟨p.2, source p.1⟩] }

/-- The states that the scans of some paths can come to. -/
inductive Reachable (source : Source) (paths : List Path) (workers : Nat) : Schedule → Prop
  | start : Reachable source paths workers (start paths)
  | step {s t : Schedule} (h : Reachable source paths workers s)
      (step : Step source workers s t) : Reachable source paths workers t

/-- What can come of it when no scan is under way. If all have come to a good end, the files are
merged. If some failed, any one of those is reported, and others need not have begun. -/
inductive Outcome (policy : Policy) (s : Schedule) : Except ReadError Build → Prop
  | built {b : Build} (waiting : s.waiting = []) (running : s.running = [])
      (h : Build.ofCompleted policy s.ended = .ok b) : Outcome policy s (.ok b)
  | failed {c : Completed} {e : ReadError} (running : s.running = []) (mem : c ∈ s.ended)
      (h : c.result = .error e) : Outcome policy s (.error e)

end Schedule
end CallGraph
