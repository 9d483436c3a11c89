import CallGraph.Proofs.Graph.Accumulation
import CallGraph.Proofs.Graph.Shape
import CallGraph.Proofs.Reference.Tally
import CallGraph.Proofs.Scan.Build
import CallGraph.Proofs.Scan.Pool
import Mathlib.Algebra.BigOperators.Group.List.Basic
import Mathlib.Algebra.Ring.Nat
import Mathlib.Logic.Function.Iterate

namespace CallGraph

/-- How often the files with the name `n` refer to `q`, as their records tell it. -/
def callCount (records : List FileRecord) (q n : String) : Nat :=
  ((records.filter (·.package = n)).map fun r => (r.table.get? q).getD 0).sum

/-- A graph has the names of the records, and its weights count what the records count. -/
structure Agrees (records : List FileRecord) (g : Graph) : Prop where
  absent : ∀ q n, g.weight? q n = none ↔ callCount records q n = 0
  weight : ∀ q n, callCount records q n ≠ 0 →
    g.weight? q n = some ((· + Weight.one)^[callCount records q n - 1] .one)
  contains : ∀ x, g.contains x = true ↔ ∃ r ∈ records, r.package = x ∨ x ∈ r.table.keys

theorem callCount_perm (rs rs' : List FileRecord) (h : rs.Perm rs') (q n : String) :
    callCount rs q n = callCount rs' q n :=
  ((h.filter _).map _).sum_eq

theorem callCount_cons (r : FileRecord) (rs : List FileRecord) (q n : String) :
    callCount (r :: rs) q n =
      (if r.package = n then (r.table.get? q).getD 0 else 0) + callCount rs q n := by
  by_cases h : r.package = n <;> simp [callCount, h]

theorem Agrees.of_perm (rs rs' : List FileRecord) (h : rs.Perm rs') (g : Graph)
    (ha : Agrees rs g) : Agrees rs' g := by
  refine ⟨?_, ?_, ?_⟩
  · intro q n
    rw [← callCount_perm rs rs' h]
    exact ha.absent q n
  · intro q n
    rw [← callCount_perm rs rs' h]
    exact ha.weight q n
  · intro x
    rw [ha.contains]
    simp only [h.mem_iff]

theorem weights_of_references (references : List String) (name q n : String) :
    (references.map fun r => Graph.Addition.edge r name .one).filterMap
        (Graph.Addition.weightFor? q n) =
      .replicate (if name = n then references.count q else 0) .one := by
  induction references with
  | nil => simp
  | cons r references ih =>
    rw [List.map_cons, List.filterMap_cons, ih]
    by_cases hn : name = n
    · by_cases hr : r = q
      · simp [Graph.Addition.weightFor?, hn, hr, List.replicate_succ]
      · simp [Graph.Addition.weightFor?, hn, hr]
    · simp [Graph.Addition.weightFor?, hn]

/-- A file brings weight one to the edge from a name to its own, once for each time that it refers
to the name. -/
theorem weights_of_file (f : ScannedFile) (q n : String) :
    (Graph.Update.file f).additions.filterMap (Graph.Addition.weightFor? q n) =
      .replicate (if f.file.name = n then f.references.count q else 0) .one := by
  rw [Graph.Update.additions, List.filterMap_append, weights_of_references]
  simp [Graph.Addition.weightFor?]

theorem weights_of_files (files : List ScannedFile) (q n : String) :
    ((files.map Graph.Update.file).flatMap Graph.Update.additions).filterMap
        (Graph.Addition.weightFor? q n) =
      .replicate (callCount (files.map FileRecord.ofScanned) q n) .one := by
  induction files with
  | nil => rfl
  | cons f files ih =>
    rw [List.map_cons, List.flatMap_cons, List.filterMap_append, weights_of_file, ih,
      List.replicate_append_replicate, List.map_cons, callCount_cons]
    simp only [FileRecord.ofScanned, Reference.getD_tally]

theorem total?_replicate (k : Nat) :
    Graph.total? (.replicate (k + 1) .one) = some ((· + Weight.one)^[k] .one) := by
  induction k with
  | zero => rfl
  | succ k ih =>
    rw [List.replicate_succ', Graph.total?_concat, ih, Function.iterate_succ_apply']
    rfl

theorem mem_names_of_file (f : ScannedFile) (x : String) :
    x ∈ (Graph.Update.file f).additions.flatMap Graph.Addition.names ↔
      f.file.name = x ∨ x ∈ f.references := by
  simp only [Graph.Update.additions, List.flatMap_append, List.mem_append, List.mem_flatMap,
    List.mem_map, exists_exists_and_eq_and, exists_eq_left,
    Graph.Addition.names, List.mem_cons, List.not_mem_nil, or_false]
  constructor
  · rintro (⟨r, hr, rfl | rfl⟩ | rfl)
    · exact .inr hr
    · exact .inl rfl
    · exact .inl rfl
  · rintro (rfl | hx)
    · exact .inr rfl
    · exact .inl ⟨x, hx, .inl rfl⟩

theorem Build.graph_ofScanned (policy : Policy) (files : List ScannedFile) :
    (ofScanned policy files).graph =
      ((files.map Graph.Update.file).flatMap Graph.Update.additions).foldl Graph.add
        (.empty policy) := by
  rw [← Graph.foldl_apply_eq_additions, List.foldl_map]
  rfl

theorem Build.contains_ofScanned (policy : Policy) (files : List ScannedFile) (x : String) :
    (ofScanned policy files).graph.contains x = true ↔
      ∃ f ∈ files, f.file.name = x ∨ x ∈ f.references := by
  rw [graph_ofScanned, Graph.contains_run, List.flatMap_assoc, List.mem_flatMap]
  simp only [List.mem_map, exists_exists_and_eq_and, mem_names_of_file]

/-- An edge weighs as much as there are references that stand for it. -/
theorem Build.weight?_ofScanned (files : List ScannedFile) (q n : String) :
    (ofScanned .preserve files).graph.weight? q n =
      Graph.total? (.replicate (callCount (files.map FileRecord.ofScanned) q n) .one) := by
  rw [graph_ofScanned, Graph.weight?_run_preserve, weights_of_files]

theorem agrees_ofScanned (files : List ScannedFile) :
    Agrees (files.map FileRecord.ofScanned) (Build.ofScanned .preserve files).graph := by
  refine ⟨?_, ?_, ?_⟩
  · intro q n
    rw [Build.weight?_ofScanned, Graph.total?_eq_none, List.replicate_eq_nil_iff]
  · intro q n hk
    obtain ⟨k, hk⟩ := Nat.exists_eq_succ_of_ne_zero hk
    rw [Build.weight?_ofScanned, hk]
    exact total?_replicate k
  · intro x
    rw [Build.contains_ofScanned]
    simp only [List.mem_map, exists_exists_and_eq_and, FileRecord.ofScanned,
      Reference.mem_keys_tally]

theorem filterMap_toOption (source : Source) (paths : List Path) (files : List ScannedFile)
    (hf : paths.map source = files.map .ok) :
    (paths.filterMap fun path => (source path).toOption) = files := by
  calc (paths.filterMap fun path => (source path).toOption)
      = (paths.map source).filterMap Except.toOption := by rw [List.filterMap_map]; rfl
    _ = files := by simp [hf, List.filterMap_map, Function.comp_def, Except.toOption]

theorem Pool.records_perm {source : Source} {paths : List Path} {workers : Nat} {s : Pool}
    (hs : Reachable source paths workers s) (hf : s.IsFinal) : s.report.records.Perm
      ((paths.filterMap fun path => (source path).toOption).map FileRecord.ofScanned) := by
  rw [← filterMap_record]
  exact (received_perm (valid_of_reachable hs) hf).filterMap _

theorem agrees_of_outcome {source : Source} {paths : List Path} {workers workers' : Nat}
    {s : Pool} {t : Schedule} {r : Except ReadError Build}
    (hread : ∀ path ∈ paths, (source path).isOk = true)
    (hs : Pool.Reachable source paths workers s) (hf : s.IsFinal)
    (ht : Schedule.Reachable source paths workers' t) (hr : t.Outcome .preserve r) :
    ∃ b, r = .ok b ∧ Agrees s.report.records b.graph := by
  obtain ⟨files, hfiles, rfl⟩ := Schedule.outcome_of_readable .preserve hread ht r hr
  refine ⟨_, rfl, .of_perm _ _ ?_ _ (agrees_ofScanned files)⟩
  have hperm := Pool.records_perm hs hf
  rw [filterMap_toOption source paths files hfiles] at hperm
  exact hperm.symm

/-- On files that can all be read, what the graph says is what the records say, whichever way the
workers take their turns in either. -/
theorem modes_agree (source : Source) (paths : List Path)
    (hread : ∀ path ∈ paths, (source path).isOk = true) :
    (∀ workers s, Pool.Reachable source paths workers s → s.IsFinal →
      ∀ workers' t r, Schedule.Reachable source paths workers' t → t.Outcome .preserve r →
        ∃ b, r = .ok b ∧ Agrees s.report.records b.graph) ∧
    (∀ workers, ∃ b, Build.parallel .preserve source paths = .ok b ∧
      Agrees (FanOut.run source paths workers).records b.graph) := by
  constructor
  · intro workers s hs hf workers' t r ht hr
    exact agrees_of_outcome hread hs hf ht hr
  · intro workers
    obtain ⟨s, hs, hf, he⟩ := Pool.exists_run source paths workers
    obtain ⟨t, ht, hr⟩ := Schedule.exists_parallel .preserve source paths workers
    rw [← he]
    exact agrees_of_outcome hread hs hf ht hr

/-- Two files of one name, of which one refers to itself. -/
theorem modes_agree_shared_name :
    let source := Source.ofList [⟨⟨⟨[97]⟩, "util", "a", 3⟩, ["db", "util", "db"]⟩,
      ⟨⟨⟨[98]⟩, "util", "b", 1⟩, ["db"]⟩] .notFound
    (∀ path ∈ [(⟨[97]⟩ : Path), ⟨[98]⟩], (source path).isOk = true) ∧
    ∃ b, Build.parallel .preserve source [⟨[97]⟩, ⟨[98]⟩] = .ok b ∧
      Agrees (FanOut.run source [⟨[97]⟩, ⟨[98]⟩] 2).records b.graph := by
  intro source
  have hread : ∀ path ∈ [(⟨[97]⟩ : Path), ⟨[98]⟩], (source path).isOk = true := by decide
  exact ⟨hread, (modes_agree source [⟨[97]⟩, ⟨[98]⟩] hread).2 2⟩

end CallGraph
