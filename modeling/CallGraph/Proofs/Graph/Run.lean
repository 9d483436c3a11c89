import CallGraph.Graph

namespace CallGraph.Graph

/-- What the updates of a graph come down to: a node or one edge at a time. -/
inductive Addition
  | node (name : String)
  | edge (source target : String) (w : Weight)
  deriving DecidableEq

def add (g : Graph) : Addition → Graph
  | .node name => (g.addNode name).1
  | .edge source target w => g.addEdge source target w

/-- A file stands for one edge for each reference, in order, and then its own node. -/
def Update.additions : Update → List Addition
  | .node name => [.node name]
  | .edge source target w => [.edge source target w]
  | .file f => f.references.map (fun r => .edge r f.file.name .one) ++ [.node f.file.name]

theorem apply_eq_additions (g : Graph) (u : Update) : g.apply u = u.additions.foldl add g := by
  cases u with
  | node name => rfl
  | edge source target w => rfl
  | file f => simp only [apply, mergeFile, Update.additions, List.foldl_append, List.foldl_map,
      List.foldl_cons, List.foldl_nil, add]

theorem foldl_apply_eq_additions (us : List Update) (g : Graph) :
    us.foldl apply g = (us.flatMap Update.additions).foldl add g := by
  induction us generalizing g with
  | nil => rfl
  | cons u us ih =>
    rw [List.foldl_cons, List.flatMap_cons, List.foldl_append, apply_eq_additions, ih]

/-- The index finds each node at its place, and nothing else. -/
def Indexed (g : Graph) : Prop :=
  ∀ name i, g.index[name]? = some i ↔ ∃ n : Node, g.nodes[i]? = some n ∧ n.name = name

theorem indexed_empty (policy : Policy) : (empty policy).Indexed := by
  intro name i
  simp [empty]

theorem index_lt (g : Graph) (hg : g.Indexed) (name : String) (i : Nat)
    (hi : g.index[name]? = some i) : i < g.nodes.size := by
  obtain ⟨n, hn, -⟩ := (hg name i).mp hi
  exact (Array.getElem?_eq_some_iff.mp hn).1

theorem index_injective (g : Graph) (hg : g.Indexed) (x y : String) (i : Nat)
    (hx : g.index[x]? = some i) (hy : g.index[y]? = some i) : x = y := by
  obtain ⟨n, hn, rfl⟩ := (hg x i).mp hx
  obtain ⟨m, hm, rfl⟩ := (hg y i).mp hy
  rw [hn] at hm
  rw [Option.some.inj hm]

/-- A node that is known stays as it is; another is put behind the others. -/
theorem addNode_cases (g : Graph) (name : String) :
    (∃ i, g.index[name]? = some i ∧ g.addNode name = (g, i)) ∨
    (g.index[name]? = none ∧ g.addNode name =
      ({ g with
        nodes := g.nodes.push ⟨name, []⟩
        index := g.index.insert name g.nodes.size }, g.nodes.size)) := by
  cases hi : g.index[name]? with
  | some i => exact .inl ⟨i, rfl, by simp [addNode, hi]⟩
  | none => exact .inr ⟨rfl, by simp [addNode, hi]⟩

@[simp] theorem addNode_policy (g : Graph) (name : String) :
    (g.addNode name).1.policy = g.policy := by
  obtain ⟨i, -, he⟩ | ⟨-, he⟩ := addNode_cases g name <;> rw [he]

theorem addNode_index (g : Graph) (name : String) :
    (g.addNode name).1.index[name]? = some (g.addNode name).2 := by
  obtain ⟨i, hi, he⟩ | ⟨-, he⟩ := addNode_cases g name
  · rw [he]
    exact hi
  · rw [he]
    simp

/-- Later nodes do not move the earlier ones. -/
theorem addNode_index_of_some (g : Graph) (name x : String) (i : Nat)
    (hx : g.index[x]? = some i) : (g.addNode name).1.index[x]? = some i := by
  obtain ⟨j, -, he⟩ | ⟨hn, he⟩ := addNode_cases g name
  · rw [he]
    exact hx
  · have hne : name ≠ x := by
      intro h
      rw [h, hx] at hn
      cases hn
    rw [he]
    simp [Std.HashMap.getElem?_insert, hne, hx]

theorem indexed_addNode (g : Graph) (hg : g.Indexed) (name : String) :
    (g.addNode name).1.Indexed := by
  obtain ⟨j, -, he⟩ | ⟨hn, he⟩ := addNode_cases g name
  · rw [he]
    exact hg
  · rw [he]
    intro x i
    simp only [Std.HashMap.getElem?_insert, Array.getElem?_push, beq_iff_eq]
    by_cases hi : i = g.nodes.size
    · -- the last place belongs to the new name alone
      subst hi
      by_cases hx : name = x
      · simp [hx]
      · have hno : g.index[x]? ≠ some g.nodes.size := by
          intro h
          exact Nat.lt_irrefl _ (index_lt g hg x _ h)
        simp [hx, hno]
    · by_cases hx : name = x
      · subst hx
        have hno : ¬∃ n, g.nodes[i]? = some n ∧ n.name = name := by
          rw [← hg, hn]
          exact nofun
        simp only [if_true, if_neg hi, hno, iff_false, Option.some.injEq]
        exact fun h => hi h.symm
      · rw [if_neg hx, if_neg hi]
        exact hg x i

/-- A change to one node that leaves its name alone keeps the index right. -/
theorem indexed_modify (g : Graph) (hg : g.Indexed) (i : Nat) (f : Node → Node)
    (hf : ∀ n, (f n).name = n.name) : Indexed { g with nodes := g.nodes.modify i f } := by
  intro name j
  rw [hg name j, Array.getElem?_modify]
  by_cases hij : i = j
  · cases hn : g.nodes[j]? with
    | none => simp
    | some n => simp [hij, hf]
  · simp [hij]

theorem indexed_addEdge (g : Graph) (hg : g.Indexed) (source target : String) (w : Weight) :
    (g.addEdge source target w).Indexed :=
  indexed_modify _ (indexed_addNode _ (indexed_addNode g hg source) target) _ _ fun _ => rfl

theorem indexed_add (g : Graph) (hg : g.Indexed) (x : Addition) : (g.add x).Indexed := by
  cases x with
  | node name => exact indexed_addNode g hg name
  | edge source target w => exact indexed_addEdge g hg source target w

theorem indexed_run (xs : List Addition) (g : Graph) (hg : g.Indexed) :
    (xs.foldl add g).Indexed := by
  induction xs generalizing g with
  | nil => exact hg
  | cons x xs ih => exact ih (g.add x) (indexed_add g hg x)

theorem add_policy (g : Graph) (x : Addition) : (g.add x).policy = g.policy := by
  cases x with
  | node name => exact addNode_policy g name
  | edge source target w => simp [add, addEdge]

theorem run_policy (xs : List Addition) (g : Graph) : (xs.foldl add g).policy = g.policy := by
  induction xs generalizing g with
  | nil => rfl
  | cons x xs ih => rw [List.foldl_cons, ih, add_policy]

/-- The edges that leave a node; a name without a node has none. -/
def edgesAt (g : Graph) (name : String) : List Edge := (g.edges? name).getD []

theorem edgesAt_of_index (g : Graph) (hg : g.Indexed) (name : String) (i : Nat)
    (hi : g.index[name]? = some i) : ∃ n, g.nodes[i]? = some n ∧ g.edgesAt name = n.edges := by
  obtain ⟨n, hn, -⟩ := (hg name i).mp hi
  exact ⟨n, hn, by simp [edgesAt, edges?, hi, hn]⟩

theorem edgesAt_of_none (g : Graph) (name : String) (hi : g.index[name]? = none) :
    g.edgesAt name = [] := by
  simp [edgesAt, edges?, hi]

theorem edgesAt_addNode (g : Graph) (hg : g.Indexed) (name x : String) :
    (g.addNode name).1.edgesAt x = g.edgesAt x := by
  obtain ⟨j, -, he⟩ | ⟨hn, he⟩ := addNode_cases g name
  · rw [he]
  · by_cases hx : name = x
    · subst hx
      rw [edgesAt_of_none g name hn, he]
      simp [edgesAt, edges?]
    · rw [he]
      cases hi : g.index[x]? with
      | none => simp [edgesAt, edges?, Std.HashMap.getElem?_insert, hx, hi]
      | some i =>
        have hlt := index_lt g hg x i hi
        simp [edgesAt, edges?, Std.HashMap.getElem?_insert, hx, hi, Array.getElem?_push,
          Nat.ne_of_lt hlt]

theorem edgesAt_modify (g : Graph) (hg : g.Indexed) (source : String) (i : Nat)
    (hi : g.index[source]? = some i) (f : List Edge → List Edge) (x : String) :
    edgesAt { g with nodes := g.nodes.modify i fun n => { n with edges := f n.edges } } x =
      if x = source then f (g.edgesAt x) else g.edgesAt x := by
  by_cases hx : x = source
  · subst hx
    obtain ⟨n, hn, he⟩ := edgesAt_of_index g hg x i hi
    rw [if_pos rfl, he]
    simp [edgesAt, edges?, hi, Array.getElem?_modify, hn]
  · rw [if_neg hx]
    cases hj : g.index[x]? with
    | none => simp [edgesAt, edges?, hj]
    | some j =>
      have hij : i ≠ j := by
        intro h
        subst h
        exact hx (index_injective g hg x source i hj hi)
      simp [edgesAt, edges?, hj, Array.getElem?_modify, hij]

/-- Adding to an edge works on the edges of its source only. -/
theorem edgesAt_addEdge (g : Graph) (hg : g.Indexed) (source target : String) (w : Weight)
    (x : String) : (g.addEdge source target w).edgesAt x =
      if x = source then addWeight g.policy target w (g.edgesAt x) else g.edgesAt x := by
  have h1 := indexed_addNode g hg source
  have h2 := indexed_addNode _ h1 target
  have hs := addNode_index_of_some _ target source _ (addNode_index g source)
  have hm := edgesAt_modify _ h2 source _ hs
    (addWeight ((g.addNode source).1.addNode target).1.policy target w) x
  rw [edgesAt_addNode _ h1, edgesAt_addNode g hg] at hm
  simp only [addNode_policy] at hm
  simpa only [addEdge, addNode_policy] using hm

/-- The weight of the first edge to a target. -/
def weightTo? (es : List Edge) (target : String) : Option Weight :=
  (es.find? (·.target = target)).map (·.weight)

theorem weight?_eq_weightTo? (g : Graph) (source target : String) :
    g.weight? source target = weightTo? (g.edgesAt source) target := by
  rw [weight?, edgesAt]
  cases g.edges? source <;> rfl

end CallGraph.Graph
