import CallGraph.Scan.FanOut

namespace CallGraph

/-- A worker: the message that it is about to send, and the paths that it has still to scan. -/
structure Worker where
  held : Option Message
  waiting : List Path

/-- Workers that scan paths and send messages into a channel, and a receiver that takes them out. -/
structure Pool where
  workers : List Worker
  /-- Messages that have been sent and not yet received, in order. -/
  channel : List Message
  capacity : Nat
  isOpen : Bool
  /-- Messages that have been received, in order. -/
  received : List Message

namespace Pool

/-- Each worker has one batch of the paths. -/
def start (paths : List Path) (workers : Nat) : Pool :=
  ⟨(Batch.partition paths workers).map (⟨none, ·⟩), [], max 1 paths.length, true, []⟩

/-- What may happen next, in any order. -/
inductive Step (source : Source) : Pool → Pool → Prop
  /-- A worker that has sent its last message scans its next path. -/
  | scan {s : Pool} {i : Nat} {path : Path} {rest : List Path}
      (next : s.workers[i]? = some ⟨none, path :: rest⟩) :
      Step source s { s with
        workers := s.workers.set i ⟨some (Message.ofPath source path), rest⟩ }
  /-- A worker sends what it holds. -/
  | send {s : Pool} {i : Nat} {m : Message} {rest : List Path}
      (ready : s.workers[i]? = some ⟨some m, rest⟩) (isOpen : s.isOpen = true)
      (room : s.channel.length < s.capacity) :
      Step source s { s with
        workers := s.workers.set i ⟨none, rest⟩
        channel := s.channel ++ [m] }
  /-- The oldest message is received. -/
  | receive {s : Pool} {m : Message} {ms : List Message} (first : s.channel = m :: ms) :
      Step source s { s with channel := ms, received := s.received ++ [m] }
  /-- The channel is closed once all workers are done. -/
  | close {s : Pool} (isOpen : s.isOpen = true) (done : ∀ w ∈ s.workers, w = ⟨none, []⟩) :
      Step source s { s with isOpen := false }

/-- The states that a pool can come to. -/
inductive Reachable (source : Source) (paths : List Path) (workers : Nat) : Pool → Prop
  | start : Reachable source paths workers (start paths workers)
  | step {s t : Pool} (h : Reachable source paths workers s) (step : Step source s t) :
      Reachable source paths workers t

/-- The channel is closed and nothing is left in it. -/
def IsFinal (s : Pool) : Prop := s.isOpen = false ∧ s.channel = []

def report (s : Pool) : FanOut := .ofMessages s.received

end Pool
end CallGraph
