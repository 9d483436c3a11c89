import CallGraph.Proofs.Graph.Shape

namespace CallGraph.Graph

/-- What holds of a graph at any time. -/
structure WellFormed (g : Graph) : Prop where
  /-- No two nodes have one name. -/
  distinct : g.names.Nodup
  indexed : g.Indexed
  size : g.index.size = g.nodeCount
  /-- No two edges of a node have one target. -/
  simple : ∀ n ∈ g.nodes, (targets n.edges).Nodup
  /-- Edges lead to nodes. -/
  closed : ∀ n ∈ g.nodes, ∀ e ∈ n.edges, g.contains e.target = true

theorem size_addNode (g : Graph) (hs : g.index.size = g.nodeCount) (x : String) :
    (g.addNode x).1.index.size = (g.addNode x).1.nodeCount := by
  obtain ⟨i, -, he⟩ | ⟨hn, he⟩ := addNode_cases g x
  · rw [he]
    exact hs
  · have hx : x ∉ g.index := by
      rw [Std.HashMap.mem_iff_isSome_getElem?, hn]
      exact Bool.false_ne_true
    rw [he]
    simpa [Std.HashMap.size_insert, hx, nodeCount] using hs

theorem size_add (g : Graph) (hs : g.index.size = g.nodeCount) (x : Addition) :
    (g.add x).index.size = (g.add x).nodeCount := by
  cases x with
  | node name => exact size_addNode g hs name
  | edge source target w =>
    have h2 := size_addNode _ (size_addNode g hs source) target
    simpa [add, addEdge, nodeCount] using h2

theorem size_run (xs : List Addition) (g : Graph) (hs : g.index.size = g.nodeCount) :
    (xs.foldl add g).index.size = (xs.foldl add g).nodeCount := by
  induction xs generalizing g with
  | nil => exact hs
  | cons x xs ih => exact ih (g.add x) (size_add g hs x)

theorem edges_eq_edgesAt (g : Graph) (hg : g.Indexed) (n : Node) (hn : n ∈ g.nodes) :
    n.edges = g.edgesAt n.name := by
  obtain ⟨i, hi⟩ := Array.mem_iff_getElem?.mp hn
  obtain ⟨m, hm, he⟩ := edgesAt_of_index g hg n.name i ((hg n.name i).mpr ⟨n, hi, rfl⟩)
  rw [hi] at hm
  rw [he, Option.some.inj hm]

theorem WellFormed.simple_edgesAt {g : Graph} (hg : g.WellFormed) (a : String) :
    (targets (g.edgesAt a)).Nodup := by
  cases hi : g.index[a]? with
  | none => simp [edgesAt_of_none g a hi, targets]
  | some i =>
    obtain ⟨n, hn, he⟩ := edgesAt_of_index g hg.indexed a i hi
    rw [he]
    exact hg.simple n (Array.mem_of_getElem? hn)

/-- An edge that stands anywhere was once added, so its target was mentioned. -/
theorem target_mem_names (policy : Policy) (xs : List Addition) (a t : String)
    (ht : t ∈ targets (accumulate policy (callsFrom a xs))) :
    t ∈ xs.flatMap Addition.names := by
  rw [targets_accumulate, List.mem_eraseDups] at ht
  obtain ⟨c, hc, rfl⟩ := List.mem_map.mp ht
  obtain ⟨x, hx, he⟩ := List.mem_filterMap.mp hc
  rw [Addition.from?_eq_some] at he
  subst he
  exact List.mem_flatMap.mpr ⟨_, hx, by simp [Addition.names]⟩

theorem wellFormed_run (policy : Policy) (xs : List Addition) :
    (xs.foldl add (empty policy)).WellFormed := by
  have hg := indexed_run xs _ (indexed_empty policy)
  refine ⟨?_, hg, size_run xs _ (by simp [empty, nodeCount]), ?_, ?_⟩
  · rw [names_run]
    exact nodup_eraseDups _
  · intro n hn
    rw [edges_eq_edgesAt _ hg n hn, edgesAt_run, targets_accumulate]
    exact nodup_eraseDups _
  · intro n hn e he
    rw [edges_eq_edgesAt _ hg n hn, edgesAt_run] at he
    rw [contains_run]
    exact target_mem_names policy xs n.name e.target (List.mem_map_of_mem he)

/-- Additions put names behind the others only. -/
theorem names_prefix_addNode (g : Graph) (hg : g.Indexed) (x : String) :
    g.names <+: (g.addNode x).1.names := by
  rw [names_addNode g hg]
  split_ifs
  · exact List.prefix_refl _
  · exact List.prefix_append _ _

theorem names_prefix_add (g : Graph) (hg : g.Indexed) (x : Addition) :
    g.names <+: (g.add x).names := by
  cases x with
  | node name => exact names_prefix_addNode g hg name
  | edge source target w =>
    have h1 := names_prefix_addNode g hg source
    have h2 := names_prefix_addNode _ (indexed_addNode g hg source) target
    exact (names_addEdge g source target w) ▸ h1.trans h2

theorem names_prefix_run (xs : List Addition) (g : Graph) (hg : g.Indexed) :
    g.names <+: (xs.foldl add g).names := by
  induction xs generalizing g with
  | nil => exact List.prefix_refl _
  | cons x xs ih => exact (names_prefix_add g hg x).trans (ih _ (indexed_add g hg x))

theorem name_run (xs : List Addition) (g : Graph) (hg : g.Indexed) (i : Nat) (x : String)
    (hx : g.names[i]? = some x) : (xs.foldl add g).names[i]? = some x := by
  obtain ⟨rest, hr⟩ := names_prefix_run xs g hg
  have hi : i < g.names.length := (List.getElem?_eq_some_iff.mp hx).1
  rw [← hr, List.getElem?_append_left hi, hx]

theorem addNode_name (g : Graph) (hg : g.Indexed) (x : String) :
    (g.addNode x).1.names[(g.addNode x).2]? = some x :=
  (index_eq_some_iff _ (indexed_addNode g hg x) x _).mp (addNode_index g x)

theorem size_addNode_le (g : Graph) (x : String) :
    g.nodes.size ≤ (g.addNode x).1.nodes.size := by
  obtain ⟨i, -, he⟩ | ⟨-, he⟩ := addNode_cases g x <;> simp [he]

/-- After any updates the nodes and the index agree, and the edges of each node lead to different
nodes. A place keeps its name, whatever comes later. Each place that is looked up is that of a
node. -/
theorem run_invariant (policy : Policy) (us vs : List Update) :
    let g := us.foldl apply (empty policy)
    g.WellFormed ∧
    (∀ (i : Nat) x, g.names[i]? = some x → (vs.foldl apply g).names[i]? = some x) ∧
    (∀ x, (vs.foldl apply (g.addNode x).1).names[(g.addNode x).2]? = some x) ∧
    (∀ (x : String) i, g.index[x]? = some i → i < g.nodes.size) ∧
    (∀ x y, (g.addNode x).2 < ((g.addNode x).1.addNode y).1.nodes.size) := by
  intro g
  have hw : g.WellFormed := by
    have h := wellFormed_run policy (us.flatMap Update.additions)
    rwa [← foldl_apply_eq_additions] at h
  have hg : g.Indexed := hw.indexed
  refine ⟨hw, ?_, ?_, index_lt g hg, ?_⟩
  · intro i x hx
    rw [foldl_apply_eq_additions]
    exact name_run _ g hg i x hx
  · intro x
    rw [foldl_apply_eq_additions]
    exact name_run _ _ (indexed_addNode g hg x) _ x (addNode_name g hg x)
  · intro x y
    have hlt := index_lt _ (indexed_addNode g hg x) x _ (addNode_index g x)
    exact Nat.lt_of_lt_of_le hlt (size_addNode_le _ y)

end CallGraph.Graph
