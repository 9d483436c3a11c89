import CallGraph.Proofs.Graph.Run
import Mathlib.Data.List.Induction
import Mathlib.Tactic.SplitIfs

namespace CallGraph.Graph

/-- What an addition puts on the edge between two names. -/
def Addition.weightFor? (source target : String) : Addition → Option Weight
  | .node _ => none
  | .edge s t w => if s = source ∧ t = target then some w else none

/-- What updates put on the edge between two names, in order. -/
def weightsFor (source target : String) (us : List Update) : List Weight :=
  (us.flatMap Update.additions).filterMap (Addition.weightFor? source target)

theorem Addition.weightFor?_eq_some (a b : String) (x : Addition) (w : Weight) :
    x.weightFor? a b = some w ↔ x = .edge a b w := by
  cases x with
  | node name => simp [weightFor?]
  | edge s t v =>
    simp only [weightFor?, Addition.edge.injEq]
    split_ifs with h
    · simp [h.1, h.2]
    · simp only [false_iff]
      intro he
      exact h ⟨he.1, he.2.1⟩

theorem Addition.weightFor?_eq_none (a b : String) (x : Addition) :
    x.weightFor? a b = none ↔ ∀ w, x ≠ .edge a b w := by
  rw [Option.eq_none_iff_forall_ne_some]
  simp only [ne_eq, Addition.weightFor?_eq_some]

/-- Adds weights up from the left, beginning with the first. -/
def total? : List Weight → Option Weight
  | [] => none
  | w :: ws => some (ws.foldl (· + ·) w)

theorem total?_concat (ws : List Weight) (w : Weight) :
    total? (ws ++ [w]) = some ((total? ws).elim w (· + w)) := by
  cases ws with
  | nil => rfl
  | cons v ws => simp [total?, List.foldl_append]

theorem total?_eq_none (ws : List Weight) : total? ws = none ↔ ws = [] := by
  cases ws <;> simp [total?]

/-- Under `preserve` an addition changes the weight of its own edge only. -/
theorem weightTo?_addWeight_preserve (t b : String) (w : Weight) (es : List Edge) :
    weightTo? (addWeight .preserve t w es) b =
      if t = b then some ((weightTo? es b).elim w (· + w)) else weightTo? es b := by
  induction es with
  | nil =>
    by_cases ht : t = b <;> simp [addWeight, weightTo?, ht]
  | cons e es ih =>
    by_cases he : e.target = t
    · -- the edge is found here, and the edges behind it are not looked at
      by_cases ht : t = b <;> simp [addWeight, weightTo?, he, ht]
    · by_cases hb : e.target = b
      · subst hb
        have ht : t ≠ e.target := Ne.symm he
        simp [addWeight, weightTo?, passed, he, ht]
      · simp only [weightTo?] at ih
        simpa [addWeight, weightTo?, passed, he, hb] using ih

theorem weight?_add_preserve (g : Graph) (hg : g.Indexed) (hp : g.policy = .preserve)
    (x : Addition) (a b : String) : (g.add x).weight? a b =
      match x.weightFor? a b with
      | some w => some ((g.weight? a b).elim w (· + w))
      | none => g.weight? a b := by
  simp only [weight?_eq_weightTo?]
  cases x with
  | node name =>
    change weightTo? ((g.addNode name).1.edgesAt a) b = weightTo? (g.edgesAt a) b
    rw [edgesAt_addNode g hg]
  | edge s t w =>
    change weightTo? ((g.addEdge s t w).edgesAt a) b = _
    rw [edgesAt_addEdge g hg]
    by_cases hs : a = s
    · subst hs
      rw [if_pos rfl, hp, weightTo?_addWeight_preserve]
      by_cases ht : t = b <;> simp [Addition.weightFor?, ht]
    · have hs' : ¬(s = a ∧ t = b) := fun h => hs h.1.symm
      simp [Addition.weightFor?, hs, hs']

theorem weight?_run_preserve (xs : List Addition) (a b : String) :
    (xs.foldl add (empty .preserve)).weight? a b =
      total? (xs.filterMap (Addition.weightFor? a b)) := by
  induction xs using List.reverseRecOn with
  | nil => simp [weight?, edges?, empty, total?]
  | append_singleton xs x ih =>
    have hg := indexed_run xs _ (indexed_empty .preserve)
    have hp := run_policy xs (empty .preserve)
    rw [List.foldl_append, List.foldl_cons, List.foldl_nil, weight?_add_preserve _ hg hp, ih,
      List.filterMap_append]
    cases hx : x.weightFor? a b with
    | none => simp [hx]
    | some w => simp [hx, total?_concat]

/-- Under `preserve` an edge is there if and only if something was added to it, its weight is what
was added, summed up in that order, and no other addition changes it. -/
theorem weight_preserve_eq_sum (us : List Update) (a b : String) :
    ((us.foldl apply (empty .preserve)).weight? a b = none ↔
      ∀ w, .edge a b w ∉ us.flatMap Update.additions) ∧
    (us.foldl apply (empty .preserve)).weight? a b = total? (weightsFor a b us) ∧
    (∀ x : Addition, (∀ w, x ≠ .edge a b w) →
      ((us.foldl apply (empty .preserve)).add x).weight? a b =
        (us.foldl apply (empty .preserve)).weight? a b) := by
  rw [foldl_apply_eq_additions]
  refine ⟨?_, weight?_run_preserve _ a b, ?_⟩
  · rw [weight?_run_preserve, total?_eq_none, List.filterMap_eq_nil_iff]
    simp only [Addition.weightFor?_eq_none]
    constructor
    · intro h w hw
      exact h _ hw w rfl
    · intro h x hx w he
      exact h w (he ▸ hx)
  · intro x hx
    have hg := indexed_run (us.flatMap Update.additions) _ (indexed_empty .preserve)
    have hp := run_policy (us.flatMap Update.additions) (empty .preserve)
    rw [weight?_add_preserve _ hg hp, (Addition.weightFor?_eq_none a b x).mpr hx]

end CallGraph.Graph
