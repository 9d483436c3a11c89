import CallGraph.Proofs.Graph.WellFormed

namespace CallGraph.Graph

/-- The names that an update mentions, in order. A file mentions a name that it refers to and then
its own, for each reference, and its own once more. -/
def Update.names : Update → List String
  | .node name => [name]
  | .edge source target _ => [source, target]
  | .file f => f.references.flatMap (fun r => [r, f.file.name]) ++ [f.file.name]

/-- Where the edges lead that an update adds to at a node, in order. -/
def Update.targetsFrom (source : String) : Update → List String
  | .node _ => []
  | .edge s target _ => if s = source then [target] else []
  | .file f => (f.references.filter (· = source)).map fun _ => f.file.name

theorem Update.names_additions (u : Update) : u.additions.flatMap Addition.names = u.names := by
  cases u with
  | node name => rfl
  | edge source target w => rfl
  | file f =>
    rw [additions, List.flatMap_append, List.flatMap_map]
    rfl

theorem callsFrom_append (source : String) (xs ys : List Addition) :
    callsFrom source (xs ++ ys) = callsFrom source xs ++ callsFrom source ys :=
  List.filterMap_append

theorem targets_append (es es' : List Edge) : targets (es ++ es') = targets es ++ targets es' :=
  List.map_append

theorem targets_references (references : List String) (name source : String) :
    targets (callsFrom source (references.map fun r => .edge r name .one)) =
      (references.filter (· = source)).map fun _ => name := by
  induction references with
  | nil => rfl
  | cons r references ih =>
    rw [List.map_cons, ← List.singleton_append, callsFrom_append, targets_append, ih]
    by_cases hr : r = source <;> simp [callsFrom, Addition.from?, targets, hr]

theorem Update.targets_additions (u : Update) (source : String) :
    targets (callsFrom source u.additions) = u.targetsFrom source := by
  cases u with
  | node name => rfl
  | edge s target w =>
    by_cases hs : s = source <;>
      simp [additions, callsFrom, Addition.from?, targets, targetsFrom, hs]
  | file f =>
    rw [additions, callsFrom_append, targets_append, targets_references, targetsFrom]
    exact List.append_nil _

theorem names_updates (us : List Update) :
    (us.flatMap Update.additions).flatMap Addition.names = us.flatMap Update.names := by
  rw [List.flatMap_assoc]
  simp only [Update.names_additions]

theorem targets_updates (us : List Update) (source : String) :
    targets (callsFrom source (us.flatMap Update.additions)) =
      us.flatMap (Update.targetsFrom source) := by
  induction us with
  | nil => rfl
  | cons u us ih =>
    rw [List.flatMap_cons, callsFrom_append, targets_append, u.targets_additions, ih,
      List.flatMap_cons]

/-- A name has the place of its first mention, and a new one comes behind all others. -/
theorem addNode_place (g : Graph) (hg : g.WellFormed) (x : String) :
    (g.addNode x).2 = g.names.idxOf x := by
  obtain ⟨i, hi, he⟩ | ⟨hn, he⟩ := addNode_cases g x
  · rw [index_eq_some_iff g hg.indexed] at hi
    obtain ⟨hlt, hx⟩ := List.getElem?_eq_some_iff.mp hi
    rw [he, ← hx, hg.distinct.idxOf_getElem i hlt]
  · have hx : x ∉ g.names := by
      rw [← contains_iff g hg.indexed, contains, Std.HashMap.contains_eq_isSome_getElem?, hn]
      exact Bool.false_ne_true
    rw [he, List.idxOf_eq_length hx]
    simp [names]

theorem edgeCount_eq (g : Graph) (hg : g.Indexed) : g.edgeCount =
    (g.names.map fun a => (targets (g.edgesAt a)).length).foldr (· + ·) 0 := by
  rw [edgeCount, names, List.map_map]
  congr 1
  apply List.map_congr_left
  intro n hn
  rw [Function.comp_apply, ← edges_eq_edgesAt g hg n (Array.mem_def.mpr hn), targets,
    List.length_map]

/-- Graphs that differ in nothing but policy and weights. -/
structure SameShape (g g' : Graph) : Prop where
  names : g.names = g'.names
  targets : ∀ a, (g.edges? a).map targets = (g'.edges? a).map targets
  place : ∀ x, (g.addNode x).2 = (g'.addNode x).2
  nodeCount : g.nodeCount = g'.nodeCount
  edgeCount : g.edgeCount = g'.edgeCount

theorem edges?_eq (g : Graph) (hg : g.Indexed) (a : String) :
    g.edges? a = if a ∈ g.names then some (g.edgesAt a) else none := by
  have hc := contains_iff g hg a
  rw [contains, Std.HashMap.contains_eq_isSome_getElem?] at hc
  cases hi : g.index[a]? with
  | none =>
    rw [hi] at hc
    rw [if_neg (by simpa using hc), edges?, hi]
    rfl
  | some i =>
    rw [hi] at hc
    obtain ⟨n, hn, he⟩ := edgesAt_of_index g hg a i hi
    rw [if_pos (by simpa using hc), he, edges?, hi]
    simp [hn]

theorem SameShape.of_names (g g' : Graph) (hg : g.WellFormed) (hg' : g'.WellFormed)
    (hnames : g.names = g'.names)
    (htargets : ∀ a, Graph.targets (g.edgesAt a) = Graph.targets (g'.edgesAt a)) :
    SameShape g g' := by
  refine ⟨hnames, ?_, ?_, ?_, ?_⟩
  · intro a
    rw [edges?_eq g hg.indexed, edges?_eq g' hg'.indexed, hnames]
    split_ifs
    · exact congrArg some (htargets a)
    · rfl
  · intro x
    rw [addNode_place g hg, addNode_place g' hg', hnames]
  · have hl := congrArg List.length hnames
    simpa [Graph.names, Graph.nodeCount] using hl
  · rw [edgeCount_eq g hg.indexed, edgeCount_eq g' hg'.indexed, hnames]
    simp only [htargets]

/-- The last edge is never passed: a call ends at it or before it, or puts another behind it. -/
theorem getLast?_addWeight (policy : Policy) (t : String) (w : Weight) (es : List Edge)
    (hn : (targets es).Nodup) : (addWeight policy t w es).getLast? =
      if t ∈ targets es then
        es.getLast?.map fun e => if e.target = t then { e with weight := e.weight + w } else e
      else some ⟨t, w⟩ := by
  induction es with
  | nil => rfl
  | cons e es ih =>
    obtain ⟨hnew, hn⟩ := List.nodup_cons.mp hn
    rw [addWeight, targets_cons]
    by_cases he : e.target = t
    · rw [if_pos he, if_pos (by simp [he])]
      cases hl : es.getLast? with
      | none =>
        obtain rfl := List.getLast?_eq_none_iff.mp hl
        simp [he]
      | some last =>
        -- no other edge has that target, so the call ends before the last
        have hlast : last.target ≠ t := by
          intro ht
          have hmem : last.target ∈ targets es := List.mem_map_of_mem (List.mem_of_getLast? hl)
          rw [ht, ← he] at hmem
          exact hnew hmem
        simp [List.getLast?_cons, hl, hlast]
    · rw [if_neg he, List.getLast?_cons, ih hn]
      by_cases ht : t ∈ targets es
      · have hne : es ≠ [] := by
          rintro rfl
          cases ht
        simp [ht, List.getLast?_cons, List.getLast?_eq_some_getLast hne]
      · simp [ht, Ne.symm he]

theorem getLast?_accumulate (policy policy' : Policy) (calls : List Edge) :
    (accumulate policy calls).getLast? = (accumulate policy' calls).getLast? := by
  induction calls using List.reverseRecOn with
  | nil => rfl
  | append_singleton calls c ih =>
    have hn : ∀ p, (targets (accumulate p calls)).Nodup := by
      intro p
      rw [targets_accumulate]
      exact nodup_eraseDups _
    rw [accumulate_concat, accumulate_concat, getLast?_addWeight _ _ _ _ (hn policy),
      getLast?_addWeight _ _ _ _ (hn policy'), targets_accumulate, targets_accumulate, ih]

section

variable (policy : Policy) (us : List Update)

theorem wellFormed_updates : (us.foldl apply (empty policy)).WellFormed := by
  rw [foldl_apply_eq_additions]
  exact wellFormed_run policy _

theorem names_of_updates :
    (us.foldl apply (empty policy)).names = (us.flatMap Update.names).eraseDups := by
  rw [foldl_apply_eq_additions, names_run, names_updates]

theorem edgesAt_of_updates (a : String) : (us.foldl apply (empty policy)).edgesAt a =
    accumulate policy (callsFrom a (us.flatMap Update.additions)) := by
  rw [foldl_apply_eq_additions, edgesAt_run]

theorem targets_of_updates (a : String) : targets ((us.foldl apply (empty policy)).edgesAt a) =
    (us.flatMap (Update.targetsFrom a)).eraseDups := by
  rw [edgesAt_of_updates, targets_accumulate, targets_updates]

end

theorem sameShape_of_updates (policy policy' : Policy) (us : List Update) :
    SameShape (us.foldl apply (empty policy)) (us.foldl apply (empty policy')) := by
  apply SameShape.of_names
  · exact wellFormed_updates policy us
  · exact wellFormed_updates policy' us
  · rw [names_of_updates, names_of_updates]
  · intro a
    rw [targets_of_updates, targets_of_updates]

theorem last_edge_of_updates (policy policy' : Policy) (us : List Update) (a : String) :
    ((us.foldl apply (empty policy)).edges? a).map List.getLast? =
      ((us.foldl apply (empty policy')).edges? a).map List.getLast? := by
  have hg := (wellFormed_updates policy us).indexed
  have hg' := (wellFormed_updates policy' us).indexed
  rw [edges?_eq _ hg, edges?_eq _ hg', names_of_updates, names_of_updates, edgesAt_of_updates,
    edgesAt_of_updates]
  split_ifs
  · exact congrArg some (getLast?_accumulate policy policy' _)
  · rfl

/-- The nodes are the names mentioned and the edges of a node lead to the targets mentioned with it,
each in the order of the first mention. So a run has the same shape under either policy, and the last
edge of each node the same weight. -/
theorem shape_eq_first_mentions (us : List Update) :
    (∀ policy, let g := us.foldl apply (empty policy)
      g.names = (us.flatMap Update.names).eraseDups ∧
      ∀ n ∈ g.nodes, targets n.edges = (us.flatMap (Update.targetsFrom n.name)).eraseDups) ∧
    (let g := us.foldl apply (empty .preserve)
      let g' := us.foldl apply (empty .resetOnScan)
      SameShape g g' ∧
      ∀ a, (g.edges? a).map List.getLast? = (g'.edges? a).map List.getLast?) := by
  refine ⟨?_, sameShape_of_updates _ _ us, last_edge_of_updates _ _ us⟩
  intro policy g
  refine ⟨names_of_updates policy us, ?_⟩
  intro n hn
  have hg : g.WellFormed := wellFormed_updates policy us
  rw [edges_eq_edgesAt g hg.indexed n hn]
  exact targets_of_updates policy us n.name

end CallGraph.Graph
