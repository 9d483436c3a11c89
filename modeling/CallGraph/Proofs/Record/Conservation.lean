import CallGraph.Proofs.Record.Package
import CallGraph.Proofs.Scan.Agreement

namespace CallGraph

theorem totalLines_cons_named (f : SourceFile) (files : List SourceFile) (x : String) :
    totalLines (filesNamed (f :: files) x) =
      (if x = f.name then f.lines else 0) + totalLines (filesNamed files x) := by
  by_cases hx : f.name = x
  · simp [filesNamed, totalLines, hx]
  · simp [filesNamed, totalLines, hx, Ne.symm hx]

/-- Sorting files by name loses no lines, if each has its name among the names. -/
theorem sum_totalLines (names : List String) (hn : names.Nodup) (files : List SourceFile)
    (hf : ∀ f ∈ files, f.name ∈ names) :
    (names.map fun x => totalLines (filesNamed files x)).sum = totalLines files := by
  induction files with
  | nil => simp [filesNamed, totalLines]
  | cons f files ih =>
    have hone : names.count f.name = 1 := List.count_eq_one_of_mem hn (hf f (by simp))
    have hown : (names.map fun x => if x = f.name then f.lines else 0).sum = f.lines := by
      rw [List.sum_map_eq_nsmul_single f.name _ fun x hx _ => if_neg hx, hone, if_pos rfl,
        one_nsmul]
    have hrest := ih fun g hg => hf g (by simp [hg])
    simp only [totalLines_cons_named]
    rw [List.sum_map_add, hown, hrest]
    simp [totalLines]

/-- The records of a graph account for the files that went into it. -/
structure Accounts (files : List ScannedFile) (records : List PackageRecord) : Prop where
  /-- Each file has its name in exactly one record. -/
  once : ∀ f ∈ files, (records.map (·.package)).count f.file.name = 1
  lines : (records.map (·.lines)).sum = (files.map (·.file.lines)).sum
  /-- A record is that of a file or of a name that a file refers to. -/
  origin : ∀ r ∈ records, (∃ f ∈ files, f.file.name = r.package) ∨
    ∃ f ∈ files, r.package ∈ f.references
  /-- Calls come from files, and these have records. -/
  callers : ∀ r ∈ records, ∀ x ∈ r.table.keys, (∃ f ∈ files, f.file.name = x) ∧
    ∃ r' ∈ records, r'.package = x

namespace Graph

theorem lines_records (g : Graph) (files : List SourceFile) :
    (g.records files).map (·.lines) = g.names.map fun x => totalLines (filesNamed files x) := by
  rw [records, names, List.map_map, List.map_map]
  apply List.map_congr_left
  intro n hn
  exact PackageRecord.lines_ofNode files n

/-- The edges that files bring lead to the names of files. -/
theorem target_of_files (files : List ScannedFile) (a : String) (e : Edge)
    (he : e ∈ callsFrom a ((files.map Update.file).flatMap Update.additions)) :
    ∃ f ∈ files, f.file.name = e.target := by
  obtain ⟨x, hx, hfrom⟩ := List.mem_filterMap.mp he
  rw [Addition.from?_eq_some] at hfrom
  obtain ⟨u, hu, hxu⟩ := List.mem_flatMap.mp hx
  obtain ⟨f, hf, rfl⟩ := List.mem_map.mp hu
  subst hfrom
  refine ⟨f, hf, ?_⟩
  simp only [Update.additions, List.mem_append, List.mem_map, Addition.edge.injEq,
    List.mem_singleton, reduceCtorEq, or_false] at hxu
  obtain ⟨q, -, -, htarget, -⟩ := hxu
  exact htarget

end Graph

namespace Build

theorem wellFormed_ofScanned (policy : Policy) (files : List ScannedFile) :
    (ofScanned policy files).graph.WellFormed := by
  rw [graph_ofScanned]
  exact Graph.wellFormed_run policy _

theorem mem_names_ofScanned (policy : Policy) (files : List ScannedFile) (x : String) :
    x ∈ (ofScanned policy files).graph.names ↔
      ∃ f ∈ files, f.file.name = x ∨ x ∈ f.references := by
  have hw := wellFormed_ofScanned policy files
  rw [← Graph.contains_iff _ hw.indexed, contains_ofScanned]

theorem target_ofScanned (policy : Policy) (files : List ScannedFile) (n : Graph.Node)
    (hn : n ∈ (ofScanned policy files).graph.nodes) (t : String)
    (ht : t ∈ Graph.targets n.edges) : ∃ f ∈ files, f.file.name = t := by
  have hw := wellFormed_ofScanned policy files
  rw [Graph.edges_eq_edgesAt _ hw.indexed n hn, graph_ofScanned, Graph.edgesAt_run,
    Graph.targets_accumulate, List.mem_eraseDups] at ht
  obtain ⟨c, hc, rfl⟩ := List.mem_map.mp ht
  exact Graph.target_of_files files n.name c hc

theorem accounts_ofScanned (policy : Policy) (files : List ScannedFile) :
    Accounts files ((ofScanned policy files).graph.records (files.map (·.file))) := by
  have hw := wellFormed_ofScanned policy files
  have hnames := Graph.names_records (ofScanned policy files).graph (files.map (·.file))
  have hmem := mem_names_ofScanned policy files
  refine ⟨?_, ?_, ?_, ?_⟩
  · intro f hf
    rw [hnames]
    exact List.count_eq_one_of_mem hw.distinct ((hmem _).mpr ⟨f, hf, .inl rfl⟩)
  · have hall : ∀ f ∈ files.map (·.file), f.name ∈ (ofScanned policy files).graph.names := by
      intro f hf
      obtain ⟨s, hs, rfl⟩ := List.mem_map.mp hf
      exact (hmem _).mpr ⟨s, hs, .inl rfl⟩
    rw [Graph.lines_records, sum_totalLines _ hw.distinct _ hall, totalLines, List.map_map]
    rfl
  · intro r hr
    have hr' : r.package ∈ (ofScanned policy files).graph.names := by
      rw [← hnames]
      exact List.mem_map_of_mem hr
    obtain ⟨f, hf, hname | href⟩ := (hmem _).mp hr'
    · exact .inl ⟨f, hf, hname⟩
    · exact .inr ⟨f, hf, href⟩
  · intro r hr x hx
    obtain ⟨n, hn, rfl⟩ := List.mem_map.mp hr
    have hn' : n ∈ (ofScanned policy files).graph.nodes := Array.mem_def.mpr hn
    have hp := PackageRecord.entries_ofNode (files.map (·.file)) n (hw.simple n hn')
    have ht : x ∈ Graph.targets n.edges := by
      have h := (hp.map (·.1)).mem_iff.mp hx
      rwa [List.map_map] at h
    have hfile := target_ofScanned policy files n hn' x ht
    obtain ⟨f, hf, hname⟩ := hfile
    have hx' : x ∈ (ofScanned policy files).graph.names := (hmem x).mpr ⟨f, hf, .inl hname⟩
    rw [← hnames] at hx'
    exact ⟨⟨f, hf, hname⟩, List.mem_map.mp hx'⟩

theorem accounts_of_outcome {policy : Policy} {source : Source} {paths : List Path}
    {workers : Nat} {s : Schedule} {r : Except ReadError Build}
    (hread : ∀ path ∈ paths, (source path).isOk = true)
    (hs : Schedule.Reachable source paths workers s) (hr : s.Outcome policy r) :
    ∃ b files, r = .ok b ∧ paths.map source = files.map .ok ∧ b.files = files.map (·.file) ∧
      Accounts files (b.graph.records b.files) := by
  obtain ⟨files, hfiles, rfl⟩ := Schedule.outcome_of_readable policy hread hs r hr
  exact ⟨_, files, rfl, hfiles, rfl, accounts_ofScanned policy files⟩

/-- From files that can all be read to the records of their graph nothing is lost and nothing is
made up: names, lines and callers are those of the files. -/
theorem records_account_for_files (policy : Policy) (source : Source) (paths : List Path)
    (hread : ∀ path ∈ paths, (source path).isOk = true) :
    (∀ workers s r, Schedule.Reachable source paths workers s → s.Outcome policy r →
      ∃ b files, r = .ok b ∧ paths.map source = files.map .ok ∧ b.files = files.map (·.file) ∧
        Accounts files (b.graph.records b.files)) ∧
    (∃ b files, parallel policy source paths = .ok b ∧ paths.map source = files.map .ok ∧
      b.files = files.map (·.file) ∧ Accounts files (b.graph.records b.files)) := by
  constructor
  · intro workers s r hs hr
    exact accounts_of_outcome hread hs hr
  · obtain ⟨s, hs, hr⟩ := Schedule.exists_parallel policy source paths 1
    exact accounts_of_outcome hread hs hr

/-- Two files of one name, a file that refers to its own name, and one without a name. -/
theorem records_account_for_shared_names :
    let source := Source.ofList [⟨⟨⟨[97]⟩, "util", "a", 3⟩, ["db", "util"]⟩,
      ⟨⟨⟨[98]⟩, "util", "b", 4⟩, []⟩, ⟨⟨⟨[99]⟩, "", "b", 5⟩, ["util"]⟩] .notFound
    let paths : List Path := [⟨[97]⟩, ⟨[98]⟩, ⟨[99]⟩]
    (∀ path ∈ paths, (source path).isOk = true) ∧
    ∃ b files, parallel .resetOnScan source paths = .ok b ∧ paths.map source = files.map .ok ∧
      b.files = files.map (·.file) ∧ Accounts files (b.graph.records b.files) := by
  intro source paths
  have hread : ∀ path ∈ paths, (source path).isOk = true := by decide
  exact ⟨hread, (records_account_for_files .resetOnScan source paths hread).2⟩

end Build
end CallGraph
