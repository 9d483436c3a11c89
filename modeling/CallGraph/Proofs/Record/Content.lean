import CallGraph.Proofs.Record.Conservation

namespace CallGraph

/-- What a record tells apart from the directory, which is that of the first file. -/
def PackageRecord.content (r : PackageRecord) : String × Nat × KeyMap Weight :=
  (r.package, r.lines, r.table)

/-- Two builds tell the same, each in an order of its own. -/
structure Build.SameContent (b b' : Build) : Prop where
  names : b.graph.names.Perm b'.graph.names
  nodeCount : b.graph.nodeCount = b'.graph.nodeCount
  edgeCount : b.graph.edgeCount = b'.graph.edgeCount
  weight : ∀ x y, b.graph.weight? x y = b'.graph.weight? x y
  records : ((b.graph.records b.files).map PackageRecord.content).Perm
    ((b'.graph.records b'.files).map PackageRecord.content)

namespace Graph

def tableAt (g : Graph) (x : String) : KeyMap Weight :=
  .ofList ((g.edgesAt x).map fun e => (e.target, e.weight))

theorem get?_tableAt (g : Graph) (hg : g.WellFormed) (x y : String) :
    (g.tableAt x).get? y = g.weight? x y := by
  have hs := hg.simple_edgesAt x
  have hkeys : (((g.edgesAt x).map fun e => (e.target, e.weight)).map (·.1)).Nodup := by
    rw [List.map_map]
    exact hs
  have hp := KeyMap.entries_ofList_perm _ hkeys
  ext w
  rw [KeyMap.get?_eq_some_iff, tableAt, hp.mem_iff, weight?_eq_weightTo?, weightTo?_eq_some_iff _ hs,
    List.mem_map]
  constructor
  · rintro ⟨e, he, heq⟩
    cases heq
    exact he
  · intro he
    exact ⟨_, he, rfl⟩

/-- The records follow from the names, the weights and the lines of the files. -/
theorem content_records (g : Graph) (hg : g.Indexed) (files : List SourceFile) :
    (g.records files).map PackageRecord.content =
      g.names.map fun x => (x, totalLines (filesNamed files x), g.tableAt x) := by
  rw [records, names, List.map_map, List.map_map]
  apply List.map_congr_left
  intro n hn
  have he := edges_eq_edgesAt g hg n (Array.mem_def.mpr hn)
  simp only [Function.comp_apply, PackageRecord.content, PackageRecord.lines_ofNode, tableAt, ← he]
  rfl

theorem calls_perm (g g' : Graph) (hg : g.WellFormed) (hg' : g'.WellFormed)
    (hw : ∀ x y, g.weight? x y = g'.weight? x y) : g.calls.Perm g'.calls := by
  have hn : g.calls.Nodup := (nodup_ends g hg).of_map
  have hn' : g'.calls.Nodup := (nodup_ends g' hg').of_map
  rw [List.perm_ext_iff_of_nodup hn hn']
  rintro ⟨x, y, w⟩
  rw [mem_calls_iff g hg, mem_calls_iff g' hg', hw]

end Graph

theorem totalLines_perm (files files' : List SourceFile) (h : files.Perm files') (x : String) :
    totalLines (filesNamed files x) = totalLines (filesNamed files' x) :=
  ((h.filter _).map _).sum_eq

namespace Build

theorem sameContent_of_weights (b b' : Build) (hb : b.graph.WellFormed) (hb' : b'.graph.WellFormed)
    (hnames : ∀ x, x ∈ b.graph.names ↔ x ∈ b'.graph.names)
    (hw : ∀ x y, b.graph.weight? x y = b'.graph.weight? x y) (hfiles : b.files.Perm b'.files) :
    SameContent b b' := by
  have hn : b.graph.names.Perm b'.graph.names :=
    (List.perm_ext_iff_of_nodup hb.distinct hb'.distinct).mpr hnames
  have htables : ∀ x, b.graph.tableAt x = b'.graph.tableAt x := by
    intro x
    apply KeyMap.ext_get?
    intro y
    rw [Graph.get?_tableAt _ hb, Graph.get?_tableAt _ hb', hw]
  refine ⟨hn, ?_, ?_, hw, ?_⟩
  · simpa [Graph.names, Graph.nodeCount] using hn.length_eq
  · rw [← Graph.length_calls, ← Graph.length_calls]
    exact (Graph.calls_perm _ _ hb hb' hw).length_eq
  · rw [Graph.content_records _ hb.indexed, Graph.content_records _ hb'.indexed]
    simp only [totalLines_perm _ _ hfiles, htables]
    exact hn.map _

/-- No step of a merge commutes with another, but what comes of all of them in the end depends on the
files alone. -/
theorem sameContent_ofScanned (files files' : List ScannedFile) (h : files.Perm files') :
    SameContent (ofScanned .preserve files) (ofScanned .preserve files') := by
  apply sameContent_of_weights
  · exact wellFormed_ofScanned .preserve files
  · exact wellFormed_ofScanned .preserve files'
  · intro x
    simp only [mem_names_ofScanned, h.mem_iff]
  · intro x y
    rw [weight?_ofScanned, weight?_ofScanned, callCount_perm _ _ (h.map _)]
  · exact h.map _

theorem files_perm (source : Source) (paths paths' : List Path) (hp : paths.Perm paths')
    (files files' : List ScannedFile) (hf : paths.map source = files.map .ok)
    (hf' : paths'.map source = files'.map .ok) : files.Perm files' := by
  rw [← filterMap_toOption source paths files hf, ← filterMap_toOption source paths' files' hf']
  exact hp.filterMap _

theorem sameContent_of_outcomes {source : Source} {paths paths' : List Path} {workers workers' : Nat}
    {s s' : Schedule} {r r' : Except ReadError Build} (hp : paths.Perm paths')
    (hread : ∀ path ∈ paths, (source path).isOk = true)
    (hs : Schedule.Reachable source paths workers s) (hr : s.Outcome .preserve r)
    (hs' : Schedule.Reachable source paths' workers' s') (hr' : s'.Outcome .preserve r') :
    ∃ b b', r = .ok b ∧ r' = .ok b' ∧ SameContent b b' := by
  have hread' : ∀ path ∈ paths', (source path).isOk = true := by
    intro path hm
    exact hread path (hp.mem_iff.mpr hm)
  obtain ⟨files, hf, rfl⟩ := Schedule.outcome_of_readable .preserve hread hs r hr
  obtain ⟨files', hf', rfl⟩ := Schedule.outcome_of_readable .preserve hread' hs' r' hr'
  have hfiles := files_perm source paths paths' hp files files' hf hf'
  exact ⟨_, _, rfl, rfl, sameContent_ofScanned files files' hfiles⟩

/-- Under `preserve` the order of the files makes no difference to what the graph and its records say,
the directories of files that share a name apart. -/
theorem content_independent_of_order (source : Source) (paths paths' : List Path)
    (hp : paths.Perm paths') (hread : ∀ path ∈ paths, (source path).isOk = true) :
    (∀ workers workers' s s' r r', Schedule.Reachable source paths workers s →
      s.Outcome .preserve r → Schedule.Reachable source paths' workers' s' →
      s'.Outcome .preserve r' → ∃ b b', r = .ok b ∧ r' = .ok b' ∧ SameContent b b') ∧
    (∃ b b', parallel .preserve source paths = .ok b ∧
      parallel .preserve source paths' = .ok b' ∧ SameContent b b') := by
  constructor
  · intro workers workers' s s' r r' hs hr hs' hr'
    exact sameContent_of_outcomes hp hread hs hr hs' hr'
  · obtain ⟨s, hs, hr⟩ := Schedule.exists_parallel .preserve source paths 1
    obtain ⟨s', hs', hr'⟩ := Schedule.exists_parallel .preserve source paths' 1
    exact sameContent_of_outcomes hp hread hs hr hs' hr'

/-- Files of one name in two directories, one of which refers to itself, in two orders. -/
theorem content_independent_of_order_shared :
    let source := Source.ofList [⟨⟨⟨[97]⟩, "util", "a", 3⟩, ["db", "util", "db"]⟩,
      ⟨⟨⟨[98]⟩, "util", "b", 4⟩, ["db"]⟩, ⟨⟨⟨[99]⟩, "main", "b", 5⟩, ["util", "db"]⟩] .notFound
    let paths : List Path := [⟨[97]⟩, ⟨[98]⟩, ⟨[99]⟩]
    let paths' : List Path := [⟨[99]⟩, ⟨[98]⟩, ⟨[97]⟩]
    paths.Perm paths' ∧ (∀ path ∈ paths, (source path).isOk = true) ∧
    ∃ b b', parallel .preserve source paths = .ok b ∧
      parallel .preserve source paths' = .ok b' ∧ SameContent b b' := by
  intro source paths paths'
  have hp : paths.Perm paths' := by decide
  have hread : ∀ path ∈ paths, (source path).isOk = true := by decide
  exact ⟨hp, hread, (content_independent_of_order source paths paths' hp hread).2⟩

-- under the other policy the last of two callers to be merged is the only one left with a weight
example : Graph.weightTo? (Graph.accumulate .resetOnScan [⟨"a", .one⟩, ⟨"b", .one⟩]) "a" = some .zero ∧
    Graph.weightTo? (Graph.accumulate .resetOnScan [⟨"b", .one⟩, ⟨"a", .one⟩]) "a" = some .one := by
  decide

end Build
end CallGraph
