import CallGraph.Proofs.Graph.Run
import Mathlib.Data.List.Induction
import Mathlib.Data.List.Nodup
import Mathlib.Tactic.SplitIfs

namespace CallGraph

section

variable {α : Type} [DecidableEq α]

theorem eraseDups_concat (xs : List α) (x : α) :
    (xs ++ [x]).eraseDups = if x ∈ xs then xs.eraseDups else xs.eraseDups ++ [x] := by
  rw [List.eraseDups_append]
  split_ifs with hx <;> simp [List.removeAll, hx, List.eraseDups_cons]

theorem nodup_eraseDups (xs : List α) : xs.eraseDups.Nodup := by
  induction xs using List.reverseRecOn with
  | nil => simp
  | append_singleton xs x ih =>
    rw [eraseDups_concat]
    split_ifs with hx
    · exact ih
    · have hx' : x ∉ xs.eraseDups := by simpa using hx
      exact ih.append (List.nodup_singleton x) (by simpa using hx')

/-- One more item at the end does not change what an earlier one comes before. -/
theorem idxOf_concat_lt (xs : List α) (x a b : α) (ha : a ∈ xs) :
    (xs ++ [x]).idxOf a < (xs ++ [x]).idxOf b ↔ xs.idxOf a < xs.idxOf b := by
  have hlt := List.idxOf_lt_length_of_mem ha
  rw [List.idxOf_append_of_mem ha]
  by_cases hb : b ∈ xs
  · rw [List.idxOf_append_of_mem hb]
  · rw [List.idxOf_append_of_notMem hb, List.idxOf_eq_length hb]
    omega

theorem idxOf_last_lt (xs : List α) (a b : α) (ha : a ∉ xs) :
    (xs ++ [a]).idxOf a < (xs ++ [a]).idxOf b ↔ b ∉ xs ++ [a] := by
  have hl : (xs ++ [a]).idxOf a = xs.length := by
    rw [List.idxOf_append_of_notMem ha, List.idxOf_cons_self, Nat.add_zero]
  rw [hl]
  constructor
  · intro hlt hb
    have hle := List.idxOf_lt_length_of_mem hb
    obtain hb | rfl := by simpa using hb
    · have hlt' := List.idxOf_lt_length_of_mem hb
      rw [List.idxOf_append_of_mem hb] at hlt
      omega
    · omega
  · intro hb
    rw [List.idxOf_eq_length hb]
    simp

/-- Leaving out repetitions does not change which of two items comes first. -/
theorem idxOf_eraseDups_lt (xs : List α) (a b : α) (ha : a ∈ xs) :
    xs.eraseDups.idxOf a < xs.eraseDups.idxOf b ↔ xs.idxOf a < xs.idxOf b := by
  induction xs using List.reverseRecOn with
  | nil => simp
  | append_singleton xs x ih =>
    rw [eraseDups_concat]
    by_cases hm : a ∈ xs
    · rw [idxOf_concat_lt xs x a b hm, ← ih hm]
      split_ifs with hx
      · rfl
      · exact idxOf_concat_lt _ x a b (List.mem_eraseDups.mpr hm)
    · obtain rfl : a = x := by simpa [hm] using ha
      have hm' : a ∉ xs.eraseDups := by simpa using hm
      rw [if_neg hm, idxOf_last_lt _ a b hm', idxOf_last_lt _ a b hm]
      simp

end

namespace Graph

/-- The names of the nodes, in order. -/
def names (g : Graph) : List String := g.nodes.toList.map (·.name)

theorem getElem?_names (g : Graph) (i : Nat) : g.names[i]? = g.nodes[i]?.map (·.name) := by
  simp [names]

theorem index_eq_some_iff (g : Graph) (hg : g.Indexed) (x : String) (i : Nat) :
    g.index[x]? = some i ↔ g.names[i]? = some x := by
  rw [hg x i, getElem?_names, Option.map_eq_some_iff]

theorem contains_iff (g : Graph) (hg : g.Indexed) (x : String) :
    g.contains x = true ↔ x ∈ g.names := by
  rw [contains, Std.HashMap.contains_eq_isSome_getElem?, Option.isSome_iff_exists,
    List.mem_iff_getElem?]
  exact exists_congr fun i => index_eq_some_iff g hg x i

theorem names_addNode (g : Graph) (hg : g.Indexed) (x : String) :
    (g.addNode x).1.names = if x ∈ g.names then g.names else g.names ++ [x] := by
  have hc : x ∈ g.names ↔ g.index[x]?.isSome = true := by
    rw [← contains_iff g hg, contains, Std.HashMap.contains_eq_isSome_getElem?]
  obtain ⟨i, hi, he⟩ | ⟨hn, he⟩ := addNode_cases g x
  · rw [he, if_pos (hc.mpr (by simp [hi]))]
  · rw [he, if_neg (mt hc.mp (by simp [hn]))]
    simp [names]

theorem names_addEdge (g : Graph) (source target : String) (w : Weight) :
    (g.addEdge source target w).names = ((g.addNode source).1.addNode target).1.names := by
  apply List.ext_getElem?
  intro i
  simp only [addEdge, getElem?_names, Array.getElem?_modify]
  split_ifs
  · rw [Option.map_map]
    rfl
  · rfl

/-- The names that an addition mentions, in the order in which it makes nodes of them. -/
def Addition.names : Addition → List String
  | .node name => [name]
  | .edge source target _ => [source, target]

theorem names_addNode_eraseDups (g : Graph) (hg : g.Indexed) (xs : List String) (x : String)
    (h : g.names = xs.eraseDups) : (g.addNode x).1.names = (xs ++ [x]).eraseDups := by
  rw [names_addNode g hg, h, eraseDups_concat]
  simp only [List.mem_eraseDups]

theorem names_add (g : Graph) (hg : g.Indexed) (xs : List String) (x : Addition)
    (h : g.names = xs.eraseDups) : (g.add x).names = (xs ++ x.names).eraseDups := by
  cases x with
  | node name => exact names_addNode_eraseDups g hg xs name h
  | edge source target w =>
    have h1 := names_addNode_eraseDups g hg xs source h
    have h2 := names_addNode_eraseDups _ (indexed_addNode g hg source) _ target h1
    rw [List.append_assoc] at h2
    exact (names_addEdge g source target w).trans h2

/-- The nodes are the names mentioned, in the order of their first mention. -/
theorem names_run (policy : Policy) (xs : List Addition) :
    (xs.foldl add (empty policy)).names = (xs.flatMap Addition.names).eraseDups := by
  induction xs using List.reverseRecOn with
  | nil => rfl
  | append_singleton xs x ih =>
    have hg := indexed_run xs _ (indexed_empty policy)
    rw [List.foldl_append, List.foldl_cons, List.foldl_nil, names_add _ hg _ x ih]
    simp

theorem contains_run (policy : Policy) (xs : List Addition) (x : String) :
    (xs.foldl add (empty policy)).contains x = true ↔ x ∈ xs.flatMap Addition.names := by
  rw [contains_iff _ (indexed_run xs _ (indexed_empty policy)), names_run, List.mem_eraseDups]

/-- What an addition brings to the edges that leave a node. -/
def Addition.from? (source : String) : Addition → Option Edge
  | .node _ => none
  | .edge s target w => if s = source then some ⟨target, w⟩ else none

theorem Addition.from?_eq_some (source : String) (x : Addition) (e : Edge) :
    x.from? source = some e ↔ x = .edge source e.target e.weight := by
  cases x with
  | node name => simp [from?]
  | edge s t w =>
    simp only [from?, Addition.edge.injEq]
    obtain ⟨t', w'⟩ := e
    split_ifs with h <;> simp [h]

/-- What additions bring to the edges that leave a node, in order. -/
def callsFrom (source : String) (xs : List Addition) : List Edge :=
  xs.filterMap (Addition.from? source)

/-- The edges that come of bringing weights to targets, one after the other. -/
def accumulate (policy : Policy) (calls : List Edge) : List Edge :=
  calls.foldl (fun es c => addWeight policy c.target c.weight es) []

theorem accumulate_concat (policy : Policy) (calls : List Edge) (c : Edge) :
    accumulate policy (calls ++ [c]) =
      addWeight policy c.target c.weight (accumulate policy calls) := by
  rw [accumulate, List.foldl_append]
  rfl

theorem edgesAt_add (g : Graph) (hg : g.Indexed) (x : Addition) (a : String) :
    (g.add x).edgesAt a =
      match x.from? a with
      | some c => addWeight g.policy c.target c.weight (g.edgesAt a)
      | none => g.edgesAt a := by
  cases x with
  | node name => exact edgesAt_addNode g hg name a
  | edge s t w =>
    change (g.addEdge s t w).edgesAt a = _
    rw [edgesAt_addEdge g hg]
    by_cases hs : a = s
    · simp [Addition.from?, hs]
    · simp [Addition.from?, hs, Ne.symm hs]

/-- The edges that leave a node come of the calls from it, and of nothing else. -/
theorem edgesAt_run (policy : Policy) (xs : List Addition) (a : String) :
    (xs.foldl add (empty policy)).edgesAt a = accumulate policy (callsFrom a xs) := by
  induction xs using List.reverseRecOn with
  | nil => simp [edgesAt, edges?, empty, callsFrom, accumulate]
  | append_singleton xs x ih =>
    have hg := indexed_run xs _ (indexed_empty policy)
    have hp : (xs.foldl add (empty policy)).policy = policy := run_policy xs (empty policy)
    rw [List.foldl_append, List.foldl_cons, List.foldl_nil, edgesAt_add _ hg, hp, ih]
    cases hx : x.from? a with
    | none => simp [callsFrom, hx]
    | some c => simp [callsFrom, hx, accumulate_concat]

def targets (es : List Edge) : List String := es.map (·.target)

theorem targets_cons (e : Edge) (es : List Edge) : targets (e :: es) = e.target :: targets es := rfl

theorem targets_concat (es : List Edge) (e : Edge) :
    targets (es ++ [e]) = targets es ++ [e.target] := by
  simp [targets]

theorem targets_addWeight (policy : Policy) (t : String) (w : Weight) (es : List Edge) :
    targets (addWeight policy t w es) =
      if t ∈ targets es then targets es else targets es ++ [t] := by
  induction es with
  | nil => rfl
  | cons e es ih =>
    by_cases he : e.target = t
    · simp [addWeight, targets_cons, he]
    · have he' : t ≠ e.target := Ne.symm he
      by_cases ht : t ∈ targets es <;> simp [addWeight, targets_cons, he, he', ih, ht]

/-- The edges of a node lead to the targets of the calls, in the order of the first calls. -/
theorem targets_accumulate (policy : Policy) (calls : List Edge) :
    targets (accumulate policy calls) = (targets calls).eraseDups := by
  induction calls using List.reverseRecOn with
  | nil => rfl
  | append_singleton calls c ih =>
    rw [accumulate_concat, targets_addWeight, ih, targets_concat, eraseDups_concat]
    simp only [List.mem_eraseDups]

end Graph
end CallGraph
