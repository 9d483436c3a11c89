import CallGraph.Proofs.Graph.Report
import CallGraph.Proofs.Graph.WellFormed
import CallGraph.Proofs.KeyMap
import CallGraph.Record.Basic

namespace CallGraph

/-- The files of one name, in order. -/
def filesNamed (files : List SourceFile) (name : String) : List SourceFile :=
  files.filter (·.name = name)

def totalLines (files : List SourceFile) : Nat := (files.map (·.lines)).sum

namespace Metadata

theorem byName_concat (files : List SourceFile) (f : SourceFile) :
    byName (files ++ [f]) = (byName files).alter f.name fun old => some (add f old) := by
  rw [byName, List.foldl_append]
  rfl

/-- The table has the names of the files. Its lines are those of all files of the name, its directory
that of the first. -/
theorem getElem?_byName (files : List SourceFile) (x : String) :
    (byName files)[x]? = (filesNamed files x).head?.map fun f =>
      ⟨totalLines (filesNamed files x), f.directory⟩ := by
  induction files using List.reverseRecOn with
  | nil => simp [byName, filesNamed]
  | append_singleton files f ih =>
    rw [byName_concat, Std.HashMap.getElem?_alter]
    by_cases hx : f.name = x
    · subst hx
      have hown : filesNamed (files ++ [f]) f.name = filesNamed files f.name ++ [f] := by
        simp [filesNamed]
      rw [hown, ih]
      cases filesNamed files f.name with
      | nil => simp [add, totalLines]
      | cons g gs => simp [add, totalLines, Nat.add_assoc]
    · have hown : filesNamed (files ++ [f]) x = filesNamed files x := by
        simp [filesNamed, hx]
      simp [hown, hx, ih]

end Metadata

/-- A record tells all there is to a node and to the files of its name. -/
structure Describes (files : List SourceFile) (n : Graph.Node) (r : PackageRecord) : Prop where
  package : r.package = n.name
  /-- No edge is lost when the edges become a table. -/
  size : r.table.entries.length = n.edges.length
  weight : ∀ e ∈ n.edges, r.table.get? e.target = some e.weight
  lines : r.lines = totalLines (filesNamed files n.name)
  first : ∀ f, files.find? (·.name = n.name) = some f → r.directory = f.directory
  absent : (∀ f ∈ files, f.name ≠ n.name) → r.lines = 0 ∧ r.directory = ""

namespace PackageRecord

theorem lines_ofNode (files : List SourceFile) (n : Graph.Node) :
    (ofNode (Metadata.byName files) n).lines = totalLines (filesNamed files n.name) := by
  simp only [ofNode, Metadata.getElem?_byName]
  cases filesNamed files n.name with
  | nil => rfl
  | cons f fs => rfl

theorem directory_ofNode (files : List SourceFile) (n : Graph.Node) :
    (ofNode (Metadata.byName files) n).directory =
      ((files.find? (·.name = n.name)).map (·.directory)).getD "" := by
  have hhead : (filesNamed files n.name).head? = files.find? (·.name = n.name) := by
    rw [filesNamed, List.head?_filter]
  simp only [ofNode, Metadata.getElem?_byName, hhead]
  cases files.find? (·.name = n.name) with
  | none => rfl
  | some f => rfl

theorem entries_ofNode (files : List SourceFile) (n : Graph.Node)
    (hn : (Graph.targets n.edges).Nodup) :
    (ofNode (Metadata.byName files) n).table.entries.Perm
      (n.edges.map fun e => (e.target, e.weight)) := by
  apply KeyMap.entries_ofList_perm
  rw [List.map_map]
  exact hn

theorem describes_ofNode (files : List SourceFile) (n : Graph.Node)
    (hn : (Graph.targets n.edges).Nodup) :
    Describes files n (ofNode (Metadata.byName files) n) := by
  have hp := entries_ofNode files n hn
  refine ⟨rfl, ?_, ?_, lines_ofNode files n, ?_, ?_⟩
  · rw [hp.length_eq, List.length_map]
  · intro e he
    rw [KeyMap.get?_eq_some_iff, hp.mem_iff]
    exact List.mem_map.mpr ⟨e, he, rfl⟩
  · intro f hf
    rw [directory_ofNode, hf]
    rfl
  · intro hno
    have hnone : files.find? (·.name = n.name) = none := by simpa using hno
    have hown : filesNamed files n.name = [] := by simpa [filesNamed] using hno
    rw [lines_ofNode, directory_ofNode, hnone, hown]
    exact ⟨rfl, rfl⟩

/-- The entries of the table as edges from the package. -/
def calls (r : PackageRecord) : List (String × Graph.Edge) :=
  r.table.entries.map fun e => (r.package, ⟨e.1, e.2⟩)

end PackageRecord

namespace Graph

theorem names_records (g : Graph) (files : List SourceFile) :
    (g.records files).map (·.package) = g.names := by
  rw [records, List.map_map]
  rfl

theorem getElem?_records (g : Graph) (files : List SourceFile) (i : Nat) :
    (g.records files)[i]? = g.nodes[i]?.map (PackageRecord.ofNode (Metadata.byName files)) := by
  simp [records]

/-- The ends of an edge tell it from all others. -/
theorem nodup_ends (g : Graph) (hg : g.WellFormed) :
    (g.calls.map fun c => (c.1, c.2.target)).Nodup := by
  rw [calls, List.map_flatMap, List.nodup_flatMap]
  constructor
  · intro n hn
    have hs := hg.simple n (Array.mem_def.mpr hn)
    rw [List.map_map]
    have hinj : Function.Injective fun t : String => (n.name, t) := by
      intro a b hab
      exact (Prod.mk.inj hab).2
    have h := hs.map hinj
    rwa [targets, List.map_map] at h
  · have hd : g.nodes.toList.Pairwise fun m n => m.name ≠ n.name := List.pairwise_map.mp hg.distinct
    apply hd.imp
    intro m n hne x hm hn
    simp only [List.map_map, List.mem_map] at hm hn
    obtain ⟨e, -, rfl⟩ := hm
    obtain ⟨e', -, he⟩ := hn
    exact hne (Prod.mk.inj he).1.symm

theorem weightTo?_eq_some_iff (es : List Edge) (hn : (targets es).Nodup) (b : String) (w : Weight) :
    weightTo? es b = some w ↔ ⟨b, w⟩ ∈ es := by
  have hfind : weightTo? es b = KeyMap.find (es.map fun e => (e.target, e.weight)) b := by
    simp [weightTo?, KeyMap.find, List.find?_map, Function.comp_def]
  have hkeys : ((es.map fun e => (e.target, e.weight)).map (·.1)).Nodup := by
    rw [List.map_map]
    exact hn
  rw [hfind, KeyMap.find_eq_some_iff _ hkeys, List.mem_map]
  constructor
  · rintro ⟨e, he, heq⟩
    cases heq
    exact he
  · intro he
    exact ⟨_, he, rfl⟩

theorem mem_edgesAt_iff (g : Graph) (hg : g.Indexed) (a : String) (e : Edge) :
    e ∈ g.edgesAt a ↔ ∃ n ∈ g.nodes, n.name = a ∧ e ∈ n.edges := by
  constructor
  · intro he
    cases hi : g.index[a]? with
    | none => simp [edgesAt_of_none g a hi] at he
    | some i =>
      obtain ⟨n, hn, hname⟩ := (hg a i).mp hi
      have hmem : n ∈ g.nodes := Array.mem_of_getElem? hn
      have hedges := edges_eq_edgesAt g hg n hmem
      rw [hname] at hedges
      exact ⟨n, hmem, hname, hedges ▸ he⟩
  · rintro ⟨n, hn, rfl, he⟩
    rw [← edges_eq_edgesAt g hg n hn]
    exact he

/-- The edges are those that have a weight. -/
theorem mem_calls_iff (g : Graph) (hg : g.WellFormed) (a b : String) (w : Weight) :
    (a, ⟨b, w⟩) ∈ g.calls ↔ g.weight? a b = some w := by
  rw [weight?_eq_weightTo?, weightTo?_eq_some_iff _ (hg.simple_edgesAt a),
    mem_edgesAt_iff g hg.indexed, calls, List.mem_flatMap]
  constructor
  · rintro ⟨n, hn, hm⟩
    obtain ⟨e, he, heq⟩ := List.mem_map.mp hm
    cases heq
    exact ⟨n, Array.mem_def.mpr hn, rfl, he⟩
  · rintro ⟨n, hn, rfl, he⟩
    exact ⟨n, Array.mem_def.mp hn, List.mem_map_of_mem he⟩

theorem calls_records (g : Graph) (hg : g.WellFormed) (files : List SourceFile) :
    ((g.records files).flatMap PackageRecord.calls).Perm g.calls := by
  rw [records, List.flatMap_map, calls]
  apply List.Perm.flatMap_left
  intro n hn
  have hs := hg.simple n (Array.mem_def.mpr hn)
  have hp := PackageRecord.entries_ofNode files n hs
  have hm := hp.map fun e : String × Weight => (n.name, (⟨e.1, e.2⟩ : Edge))
  rw [List.map_map] at hm
  exact hm

theorem toList_reportText (g : Graph) :
    g.reportText.toList = g.report.flatMap fun line => line.toList ++ ['\n'] := by
  rw [reportText, String.toList_join, List.flatMap_map]
  simp

/-- The records and the report tell the same graph, and all of it. There is one record for each node,
in the order in which the nodes were first named, and one line for each edge, with its ends and its
weight. -/
theorem records_complete (policy : Policy) (us : List Update) (files : List SourceFile) :
    let g := us.foldl apply (empty policy)
    let rs := g.records files
    (rs.map (·.package) = ((us.flatMap Update.additions).flatMap Addition.names).eraseDups ∧
      (rs.map (·.package)).Nodup ∧ rs.length = g.nodeCount ∧
      ∀ (i : Nat) n, g.nodes[i]? = some n → ∃ r, rs[i]? = some r ∧ Describes files n r) ∧
    (List.Forall₂ (fun (call : String × Edge) (line : String) => ∃ text : List Char,
          call.2.weight.Shown text ∧
          line = call.1 ++ " is referenced by " ++ call.2.target ++ ", weight " ++ .ofList text)
        g.calls g.report ∧
      g.report.length = g.edgeCount ∧
      (g.calls.map fun c => (c.1, c.2.target)).Nodup ∧
      (∀ a b w, (a, ⟨b, w⟩) ∈ g.calls ↔ g.weight? a b = some w) ∧
      (rs.flatMap PackageRecord.calls).Perm g.calls) ∧
    g.reportText.toList = g.report.flatMap fun line => line.toList ++ ['\n'] := by
  intro g rs
  have hrun : g = (us.flatMap Update.additions).foldl add (empty policy) :=
    foldl_apply_eq_additions us (empty policy)
  have hw : g.WellFormed := hrun ▸ wellFormed_run policy _
  have hnames : rs.map (·.package) = g.names := names_records g files
  refine ⟨⟨?_, ?_, ?_, ?_⟩, ⟨forall₂_report g, ?_, nodup_ends g hw, mem_calls_iff g hw,
    calls_records g hw files⟩, toList_reportText g⟩
  · rw [hnames, hrun, names_run]
  · rw [hnames]
    exact hw.distinct
  · simp [rs, records, nodeCount]
  · intro i n hn
    have hs := hw.simple n (Array.mem_of_getElem? hn)
    refine ⟨_, ?_, PackageRecord.describes_ofNode files n hs⟩
    rw [getElem?_records, hn]
    rfl
  · rw [report_eq_lines, List.length_map, length_calls]

end Graph
end CallGraph
