import CallGraph.Proofs.Files.Written
import CallGraph.Proofs.Run

namespace CallGraph

namespace Job

section

variable {α : Type} (job : Job) (make : Tree → List Path → Except RunError (α × Snapshot))
  {t : Tree}

end

section

variable (job : Job) (source : Tree → Source)
  (hsource : ∀ (t t' : Tree) path, t'.read path = t.read path → source t' path = source t path)
  {t t₁ : Tree}

include hsource

end

end Job
end CallGraph
