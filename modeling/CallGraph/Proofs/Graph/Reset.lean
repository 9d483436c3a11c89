import CallGraph.Proofs.Graph.Accumulation
import CallGraph.Proofs.Graph.Shape

namespace CallGraph.Graph

/-- The place of the first call with a target. -/
def first (calls : List Edge) (target : String) : Nat := (targets calls).idxOf target

/-- Call `i` passes the edge to `b`: that edge is there, and the edge that the call looks for lies
behind it or is not there yet. -/
def Resets (calls : List Edge) (b : String) (i : Nat) : Prop :=
  ∃ c, calls[i]? = some c ∧ first calls b < i ∧ c.target ≠ b ∧
    first calls b < first calls c.target

def IsLastReset (calls : List Edge) (b : String) (r : Nat) : Prop :=
  Resets calls b r ∧ ∀ i, Resets calls b i → i ≤ r

/-- What calls bring to one target, in order. -/
def weightsTo (b : String) (calls : List Edge) : List Weight :=
  (calls.filter (·.target = b)).map (·.weight)

theorem weightTo?_eq_none (es : List Edge) (b : String) :
    weightTo? es b = none ↔ b ∉ targets es := by
  simp [weightTo?, targets]

theorem weightTo?_cons (e : Edge) (es : List Edge) (b : String) :
    weightTo? (e :: es) b = if e.target = b then some e.weight else weightTo? es b := by
  by_cases he : e.target = b <;> simp [weightTo?, he]

/-- A call adds to its own edge, and the edges before that start again from zero. -/
theorem weightTo?_addWeight_reset (t b : String) (w : Weight) (es : List Edge) :
    weightTo? (addWeight .resetOnScan t w es) b =
      if t = b then some ((weightTo? es b).elim w (· + w))
      else if (targets es).idxOf b < (targets es).idxOf t then some .zero
      else weightTo? es b := by
  induction es with
  | nil => by_cases ht : t = b <;> simp [addWeight, weightTo?, targets, ht]
  | cons e es ih =>
    rw [addWeight]
    by_cases he : e.target = t
    · -- the call's own edge comes first, so none is passed
      by_cases ht : t = b <;> simp [weightTo?_cons, targets_cons, he, ht]
    · by_cases hb : e.target = b
      · subst hb
        have ht : t ≠ e.target := Ne.symm he
        simp [weightTo?_cons, targets_cons, passed, he, ht, List.idxOf_cons_ne]
      · simp [weightTo?_cons, targets_cons, he, hb, ih, List.idxOf_cons_ne]

theorem first_lt_length (calls : List Edge) (b : String) (hb : b ∈ targets calls) :
    first calls b < calls.length := by
  have h := List.idxOf_lt_length_of_mem hb
  rwa [targets, List.length_map] at h

theorem Resets.lt_length {calls : List Edge} {b : String} {i : Nat} (h : Resets calls b i) :
    i < calls.length := by
  obtain ⟨c, hc, -⟩ := h
  exact (List.getElem?_eq_some_iff.mp hc).1

theorem first_concat (calls : List Edge) (c : Edge) (b : String) (hb : b ∈ targets calls) :
    first (calls ++ [c]) b = first calls b := by
  rw [first, targets_concat, List.idxOf_append_of_mem hb, first]

theorem first_lt_concat (calls : List Edge) (c : Edge) (b t : String) (hb : b ∈ targets calls) :
    first calls b < first (calls ++ [c]) t ↔ first calls b < first calls t := by
  have h := idxOf_concat_lt (targets calls) c.target b t hb
  rw [← targets_concat] at h
  calc first calls b < first (calls ++ [c]) t
      ↔ first (calls ++ [c]) b < first (calls ++ [c]) t := by rw [first_concat calls c b hb]
    _ ↔ first calls b < first calls t := h

/-- The last call resets an edge that was there if it passes it; for the earlier calls nothing
changes. -/
theorem resets_concat (calls : List Edge) (c : Edge) (b : String) (hb : b ∈ targets calls)
    (i : Nat) : Resets (calls ++ [c]) b i ↔ Resets calls b i ∨
      i = calls.length ∧ c.target ≠ b ∧ first calls b < first calls c.target := by
  have hlen := first_lt_length calls b hb
  simp only [Resets, first_concat calls c b hb, first_lt_concat calls c b _ hb]
  obtain hi | rfl | hi := Nat.lt_trichotomy i calls.length
  · rw [List.getElem?_append_left hi]
    simp [Nat.ne_of_lt hi]
  · simp [hlen]
  · have hnone : calls[i]? = none := List.getElem?_eq_none (by omega)
    have hnone' : (calls ++ [c])[i]? = none := List.getElem?_eq_none (by simp; omega)
    simp [hnone, hnone', Nat.ne_of_gt hi]

/-- The first call to a target cannot reset it, and no call comes after it. -/
theorem not_resets_new (calls : List Edge) (c : Edge) (hc : c.target ∉ targets calls) (i : Nat) :
    ¬Resets (calls ++ [c]) c.target i := by
  intro h
  have hi := h.lt_length
  obtain ⟨-, -, hlt, -⟩ := h
  have hfirst : first (calls ++ [c]) c.target = calls.length := by
    rw [first, targets_concat, List.idxOf_append_of_notMem hc]
    simp [targets]
  rw [List.length_append, List.length_singleton] at hi
  omega

/-- The edges stand in the order of the first calls, so that order says which of them are passed. -/
theorem weightTo?_accumulate_concat (calls : List Edge) (c : Edge) (b : String)
    (hb : b ∈ targets calls) : weightTo? (accumulate .resetOnScan (calls ++ [c])) b =
      if c.target = b then
        some ((weightTo? (accumulate .resetOnScan calls) b).elim c.weight (· + c.weight))
      else if first calls b < first calls c.target then some .zero
      else weightTo? (accumulate .resetOnScan calls) b := by
  rw [accumulate_concat, weightTo?_addWeight_reset, targets_accumulate]
  simp only [idxOf_eraseDups_lt _ b c.target hb]
  rfl

theorem weightsTo_concat (calls : List Edge) (c : Edge) (b : String) :
    weightsTo b (calls ++ [c]) =
      if c.target = b then weightsTo b calls ++ [c.weight] else weightsTo b calls := by
  split_ifs with h <;> simp [weightsTo, h]

theorem weightsTo_eq_nil (calls : List Edge) (b : String) (hb : b ∉ targets calls) :
    weightsTo b calls = [] := by
  simpa [weightsTo, targets] using hb

/-- The weight of an edge is what was brought to it since the last call that reset it. -/
theorem weightTo?_accumulate_reset (calls : List Edge) (b : String) (hb : b ∈ targets calls) :
    (∀ i, ¬Resets calls b i) ∧
      weightTo? (accumulate .resetOnScan calls) b = total? (weightsTo b calls) ∨
    ∃ r, IsLastReset calls b r ∧ weightTo? (accumulate .resetOnScan calls) b =
      some ((weightsTo b (calls.drop (r + 1))).foldl (· + ·) .zero) := by
  induction calls using List.reverseRecOn with
  | nil => simp [targets] at hb
  | append_singleton calls c ih =>
    by_cases hm : b ∈ targets calls
    · rw [weightTo?_accumulate_concat calls c b hm]
      by_cases hpass : c.target ≠ b ∧ first calls b < first calls c.target
      · -- the last call is the last reset, and nothing comes after it
        have hr : IsLastReset (calls ++ [c]) b calls.length := by
          refine ⟨(resets_concat calls c b hm _).mpr (.inr ⟨rfl, hpass⟩), ?_⟩
          intro i hi
          have hlt := hi.lt_length
          rw [List.length_append, List.length_singleton] at hlt
          omega
        refine .inr ⟨calls.length, hr, ?_⟩
        rw [if_neg hpass.1, if_pos hpass.2]
        simp [weightsTo]
      · have hsame : ∀ i, Resets (calls ++ [c]) b i ↔ Resets calls b i := by
          intro i
          rw [resets_concat calls c b hm]
          simp [hpass]
        have hpass' : c.target ≠ b → ¬first calls b < first calls c.target :=
          fun hne hlt => hpass ⟨hne, hlt⟩
        obtain ⟨hno, hw⟩ | ⟨r, hr, hw⟩ := ih hm
        · refine .inl ⟨fun i hi => hno i ((hsame i).mp hi), ?_⟩
          rw [hw, weightsTo_concat]
          split_ifs with ht hlt
          · rw [total?_concat]
          · exact absurd hlt (hpass' ht)
          · rfl
        · have hle : r + 1 ≤ calls.length := hr.1.lt_length
          refine .inr ⟨r, ⟨(hsame r).mpr hr.1, fun i hi => hr.2 i ((hsame i).mp hi)⟩, ?_⟩
          rw [hw, List.drop_append_of_le_length hle, weightsTo_concat]
          split_ifs with ht hlt
          · simp [List.foldl_append]
          · exact absurd hlt (hpass' ht)
          · rfl
    · obtain rfl : b = c.target := by simpa [targets_concat, hm] using hb
      have hnone := (weightTo?_eq_none (accumulate .resetOnScan calls) c.target).mpr (by
        rwa [targets_accumulate, List.mem_eraseDups])
      refine .inl ⟨not_resets_new calls c hm, ?_⟩
      rw [accumulate_concat, weightTo?_addWeight_reset, if_pos rfl, hnone, weightsTo_concat, if_pos rfl,
        weightsTo_eq_nil calls c.target hm]
      rfl

theorem weight?_run (policy : Policy) (xs : List Addition) (a b : String) :
    (xs.foldl add (empty policy)).weight? a b =
      weightTo? (accumulate policy (callsFrom a xs)) b := by
  rw [weight?_eq_weightTo?, edgesAt_run]

theorem weight?_add_of_other (g : Graph) (hg : g.Indexed) (x : Addition) (a b : String)
    (hx : ∀ t w, x ≠ .edge a t w) : (g.add x).weight? a b = g.weight? a b := by
  have hnone : x.from? a = none := by
    rw [Option.eq_none_iff_forall_ne_some]
    intro c hc
    exact hx _ _ ((Addition.from?_eq_some a x c).mp hc)
  rw [weight?_eq_weightTo?, edgesAt_add g hg, hnone, weight?_eq_weightTo?]

/-- Under `resetOnScan` the weight of an edge is the sum of what was added to it, if no later
addition passed it, and otherwise the sum from zero of what was added since the last that did. Only
additions from the same node count. -/
theorem weight_reset_eq_sum (us : List Update) (a b : String) :
    let g := us.foldl apply (empty .resetOnScan)
    let calls := callsFrom a (us.flatMap Update.additions)
    (b ∈ targets calls →
      (∀ i, ¬Resets calls b i) ∧ g.weight? a b = total? (weightsTo b calls) ∨
      ∃ r, IsLastReset calls b r ∧
        g.weight? a b = some ((weightsTo b (calls.drop (r + 1))).foldl (· + ·) .zero)) ∧
    (b ∉ targets calls → g.weight? a b = none) ∧
    (∀ x : Addition, (∀ t w, x ≠ .edge a t w) → (g.add x).weight? a b = g.weight? a b) := by
  intro g calls
  have hg : g.Indexed := by
    have h := indexed_run (us.flatMap Update.additions) _ (indexed_empty .resetOnScan)
    rwa [← foldl_apply_eq_additions] at h
  have hw : g.weight? a b = weightTo? (accumulate .resetOnScan calls) b := by
    have h := weight?_run .resetOnScan (us.flatMap Update.additions) a b
    rwa [← foldl_apply_eq_additions] at h
  refine ⟨?_, ?_, fun x hx => weight?_add_of_other g hg x a b hx⟩
  · intro hb
    rw [hw]
    exact weightTo?_accumulate_reset calls b hb
  · intro hb
    rw [hw, weightTo?_eq_none, targets_accumulate, List.mem_eraseDups]
    exact hb

end CallGraph.Graph
