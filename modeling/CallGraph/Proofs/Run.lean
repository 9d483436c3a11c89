import CallGraph.Proofs.Files.Resolve
import CallGraph.Proofs.Scan.Agreement
import CallGraph.Run

namespace CallGraph

namespace RunM

end RunM

namespace Job

section

variable {α : Type} (job : Job) (make : Tree → List Path → Except RunError (α × Snapshot))
  (t : Tree)

end

end Job

/-- A way to build graphs in which the scans follow some schedule. -/
structure Builder (policy : Policy) (workers : Nat) where
  build : Source → List Path → Except ReadError Build
  scheduled : ∀ source paths, ∃ s,
    Schedule.Reachable source paths workers s ∧ s.Outcome policy (build source paths)

/-- A way to gather records in which the workers take turns in some order. -/
structure Gatherer (workers : Nat) where
  gather : Source → List Path → FanOut
  pooled : ∀ source paths, ∃ s,
    Pool.Reachable source paths workers s ∧ s.IsFinal ∧ s.report = gather source paths

def Builder.inOrder (policy : Policy) (workers : Nat) : Builder policy workers :=
  ⟨Build.parallel policy, fun source paths => Schedule.exists_parallel policy source paths workers⟩

def Gatherer.inOrder (workers : Nat) : Gatherer workers :=
  ⟨(FanOut.run · · workers), fun source paths => Pool.exists_run source paths workers⟩

theorem FanOut.ofMessages_perm {ms ms' : List Message} (h : ms'.Perm ms) :
    (ofMessages ms').records.Perm (ofMessages ms).records ∧
      (ofMessages ms').skipped.Perm (ofMessages ms).skipped :=
  ⟨h.filterMap Message.record?, h.filterMap Message.skipped?⟩

/-- A gatherer files the messages for the paths in some order, with one worker in theirs. -/
theorem Gatherer.messages {workers : Nat} (c : Gatherer workers) (source : Source)
    (paths : List Path) : ∃ ms, c.gather source paths = .ofMessages ms ∧
      ms.Perm (paths.map (Message.ofPath source)) ∧
      (workers ≤ 1 → ms = paths.map (Message.ofPath source)) := by
  obtain ⟨s, hs, hf, hr⟩ := c.pooled source paths
  have hv := Pool.valid_of_reachable hs
  exact ⟨s.received, hr.symm, Pool.received_perm hv hf, Pool.received_eq hv hf⟩

theorem Gatherer.perm {workers : Nat} (c : Gatherer workers) (source : Source)
    (paths : List Path) :
    (c.gather source paths).records.Perm
        ((paths.filterMap fun path => (source path).toOption).map FileRecord.ofScanned) ∧
      (c.gather source paths).skipped.Perm (paths.filter fun path => !(source path).isOk) := by
  obtain ⟨ms, hg, hp, -⟩ := c.messages source paths
  rw [hg, ← Pool.filterMap_record, ← Pool.filterMap_skipped]
  exact FanOut.ofMessages_perm hp

section

variable (t : Tree) (language : Language) (denied : Path → Bool) (cause : IoError) (path : Path)

end

namespace Job

section

variable (job : Job) (source : Tree → Source) (t : Tree)

end

end Job
end CallGraph
