import CallGraph.Proofs.Batch
import CallGraph.Proofs.Scan.Gather
import CallGraph.Scan.Schedule

namespace CallGraph

namespace Build

theorem foldl_add (files : List ScannedFile) (b : Build) : files.foldl add b =
    ⟨files.foldl Graph.mergeFile b.graph, b.files ++ files.map (·.file)⟩ := by
  induction files generalizing b with
  | nil => simp
  | cons f files ih =>
    rw [List.foldl_cons, ih]
    simp [add]

theorem foldlM_add (source : Source) (paths : List Path) (b : Build) :
    paths.foldlM (fun b path => b.add <$> source path) b =
      (fun files => files.foldl add b) <$> paths.mapM source := by
  induction paths generalizing b with
  | nil => rfl
  | cons path paths ih =>
    rw [List.foldlM_cons, List.mapM_cons]
    cases source path with
    | error e => rfl
    | ok f =>
      change paths.foldlM _ (b.add f) = _
      rw [ih]
      cases paths.mapM source <;> rfl

/-- Merging each file as soon as it is scanned is the same as merging all at the end. -/
theorem sequential_eq (policy : Policy) (source : Source) (paths : List Path) :
    sequential policy source paths = ofScanned policy <$> paths.mapM source := by
  rw [sequential, foldlM_add]
  congr 1
  funext files
  rw [foldl_add, List.nil_append, ofScanned]

theorem parallel_eq_sequential (policy : Policy) (source : Source) (paths : List Path) :
    parallel policy source paths = sequential policy source paths := by
  rw [parallel, ofCompleted, Completed.gather_all, sequential_eq]

/-- One file after the other: all are merged, or the first that cannot be read is reported. -/
theorem sequential_cases (policy : Policy) (source : Source) (paths : List Path) :
    (∃ files, paths.map source = files.map .ok ∧
      sequential policy source paths = .ok (ofScanned policy files)) ∨
    (∃ front path back e, paths = front ++ path :: back ∧
      (∀ p ∈ front, (source p).isOk = true) ∧ source path = .error e ∧
      sequential policy source paths = .error e) := by
  rw [sequential_eq]
  obtain ⟨files, hf, ho⟩ | ⟨front, path, back, e, he, hok, hp, ho⟩ := mapM_cases source paths
  · exact .inl ⟨files, hf, by rw [ho]; rfl⟩
  · exact .inr ⟨front, path, back, e, he, hok, hp, by rw [ho]; rfl⟩

theorem not_readable (source : Source) (paths : List Path) (path : Path) (hp : path ∈ paths)
    (e : ReadError) (he : source path = .error e) : ¬∀ p ∈ paths, (source p).isOk = true := by
  intro hall
  have hok := hall path hp
  rw [he] at hok
  cases hok

theorem sequential_ok_iff (policy : Policy) (source : Source) (paths : List Path) :
    (∃ b, sequential policy source paths = .ok b) ↔
      ∀ path ∈ paths, (source path).isOk = true := by
  obtain ⟨files, hf, ho⟩ | ⟨front, path, back, e, he, -, hp, ho⟩ :=
    sequential_cases policy source paths
  · exact ⟨fun _ => isOk_of_map_eq source paths files hf, fun _ => ⟨_, ho⟩⟩
  · have hno := not_readable source paths path (by simp [he]) e hp
    simp [ho, hno]

theorem sequential_error (policy : Policy) (source : Source) (paths : List Path)
    (e : ReadError) (hs : sequential policy source paths = .error e) :
    ∃ front path back, paths = front ++ path :: back ∧
      (∀ p ∈ front, (source p).isOk = true) ∧ source path = .error e := by
  obtain ⟨files, -, ho⟩ | ⟨front, path, back, e', he, hok, hp, ho⟩ :=
    sequential_cases policy source paths
  · rw [ho] at hs
    cases hs
  · rw [ho] at hs
    obtain rfl := Except.error.inj hs
    exact ⟨front, path, back, he, hok, hp⟩

theorem sequential_of_readable (policy : Policy) (source : Source) (paths : List Path)
    (files : List ScannedFile) (hf : paths.map source = files.map .ok) :
    sequential policy source paths = .ok (ofScanned policy files) := by
  obtain ⟨files', hf', ho⟩ | ⟨front, path, back, e, he, -, hp, -⟩ :=
    sequential_cases policy source paths
  · rw [ho, map_ok_injective files' files (hf'.symm.trans hf)]
  · exact absurd hp (ne_error_of_map_eq source paths files hf path (by simp [he]) e)

/-- With one path that cannot be read there is only one failure to report. -/
theorem sequential_of_single (policy : Policy) (source : Source) (paths : List Path)
    (path : Path) (hp : path ∈ paths) (e : ReadError) (he : source path = .error e)
    (hone : ∃! p, p ∈ paths ∧ (source p).isOk = false) :
    sequential policy source paths = .error e := by
  obtain ⟨files, hf, -⟩ | ⟨front, path', back, e', hpaths, -, he', ho⟩ :=
    sequential_cases policy source paths
  · exact absurd he (ne_error_of_map_eq source paths files hf path hp e)
  · have hsame : path' = path :=
      hone.unique ⟨by simp [hpaths], by rw [he']; rfl⟩ ⟨hp, by rw [he]; rfl⟩
    rw [hsame, he] at he'
    rw [ho, Except.error.inj he']

end Build

namespace Schedule

variable {source : Source} {paths : List Path} {workers : Nat} {s t : Schedule}

/-- The scans that have ended, those under way and those that wait are together all scans. -/
theorem perm_of_reachable (h : Reachable source paths workers s) :
    (s.ended ++ (s.running ++ s.waiting).map fun p => (⟨p.2, source p.1⟩ : Completed)).Perm
      (Completed.all source paths) := by
  induction h with
  | start => exact .refl _
  | @step s t h hs ih =>
    refine .trans ?_ ih
    cases hs with
    | @begin p before after next free =>
      rw [next]
      refine (List.Perm.map _ ?_).append_left _
      rw [List.cons_append, ← List.append_assoc, ← List.append_assoc]
      exact List.perm_middle.symm
    | @finish p before after next =>
      rw [next]
      simp only [List.append_assoc, List.map_append, List.map_cons, List.cons_append,
        List.nil_append]
      exact List.perm_middle.symm.append_left _

theorem result_of_ended (h : Reachable source paths workers s) (c : Completed)
    (hc : c ∈ s.ended) : ∃ path ∈ paths, c.result = source path :=
  Completed.exists_path_of_mem source paths c
    ((perm_of_reachable h).mem_iff.mp (List.mem_append_left _ hc))

theorem perm_of_idle (h : Reachable source paths workers s) (hw : s.waiting = [])
    (hr : s.running = []) : s.ended.Perm (Completed.all source paths) := by
  have hp := perm_of_reachable h
  rw [hw, hr] at hp
  simpa using hp

/-- With all scans ended, either all went well or there is a failure to report. -/
theorem exists_outcome (policy : Policy) (h : Reachable source paths workers s)
    (hw : s.waiting = []) (hr : s.running = []) : ∃ r, Outcome policy s r := by
  obtain ⟨files, hf, -⟩ | ⟨front, path, back, e, he, -, hp, -⟩ := mapM_cases source paths
  · have hg := Completed.gather_of_perm source paths files s.ended (perm_of_idle h hw hr) hf
    exact ⟨_, .built hw hr (by rw [Build.ofCompleted, hg]; rfl)⟩
  · obtain ⟨c, hc, hres⟩ := Completed.exists_mem_of_path source paths path (by simp [he])
    have hm := (perm_of_idle h hw hr).mem_iff.mpr hc
    exact ⟨_, .failed hr hm (hres.trans hp)⟩

theorem exists_outcome_or_step (policy : Policy) (h : Reachable source paths workers s) :
    (∃ r, Outcome policy s r) ∨ ∃ t, Step source workers s t := by
  cases hr : s.running with
  | cons p ps => exact .inr ⟨_, .finish (show s.running = [] ++ p :: ps from hr)⟩
  | nil =>
    cases hw : s.waiting with
    | nil => exact .inl (exists_outcome policy h hw hr)
    | cons p ps =>
      have hfree : s.running.length < Batch.count workers := by
        rw [hr]
        exact Batch.count_pos workers
      exact .inr ⟨_, .begin (show s.waiting = [] ++ p :: ps from hw) hfree⟩

theorem length_lt (hs : Step source workers s t) :
    2 * t.waiting.length + t.running.length < 2 * s.waiting.length + s.running.length := by
  cases hs with
  | begin next free =>
    simp only [next, List.length_append, List.length_cons]
    omega
  | finish next =>
    simp only [next, List.length_append, List.length_cons]
    omega

theorem wellFounded_step (source : Source) (workers : Nat) :
    WellFounded fun t s => Step source workers s t :=
  Subrelation.wf length_lt (measure fun s : Schedule => 2 * s.waiting.length + s.running.length).wf

/-- The scans may run one after the other. -/
theorem reachable_in_order (ps : List (Path × Nat)) (ended : List Completed)
    (h : Reachable source paths workers ⟨ps, [], ended⟩) :
    Reachable source paths workers ⟨[], [], ended ++ ps.map fun p => ⟨p.2, source p.1⟩⟩ := by
  induction ps generalizing ended with
  | nil => simpa using h
  | cons p ps ih =>
    have h1 := Reachable.step h
      (.begin (show _ = [] ++ p :: ps from rfl) (Batch.count_pos workers))
    have h2 := Reachable.step h1 (.finish (show _ = [] ++ p :: [] from rfl))
    have h3 := ih _ h2
    simpa using h3

theorem exists_parallel (policy : Policy) (source : Source) (paths : List Path)
    (workers : Nat) : ∃ s, Reachable source paths workers s ∧
      Outcome policy s (Build.parallel policy source paths) := by
  have h0 : Reachable source paths workers ⟨paths.zipIdx, [], []⟩ := .start
  have h1 := reachable_in_order paths.zipIdx [] h0
  refine ⟨_, h1, ?_⟩
  cases hb : Build.parallel policy source paths with
  | ok b => exact .built rfl rfl hb
  | error e =>
    obtain ⟨files, -, ho⟩ | ⟨front, path, back, e', he, -, hp, ho⟩ :=
      Build.sequential_cases policy source paths
    · rw [Build.parallel_eq_sequential, ho] at hb
      cases hb
    · rw [Build.parallel_eq_sequential, ho] at hb
      obtain rfl := Except.error.inj hb
      obtain ⟨c, hc, hres⟩ := Completed.exists_mem_of_path source paths path (by simp [he])
      exact .failed rfl hc (hres.trans hp)

/-- A build has all files in the order of their paths, and a failure is that of one of the paths. -/
theorem outcome_cases (policy : Policy) (h : Reachable source paths workers s)
    (r : Except ReadError Build) (ho : Outcome policy s r) :
    (∃ files, paths.map source = files.map .ok ∧ r = .ok (Build.ofScanned policy files)) ∨
    (∃ path ∈ paths, ∃ e, source path = .error e ∧ r = .error e) := by
  cases ho with
  | @built b hw hr hb =>
    obtain ⟨files, hf, -⟩ | ⟨front, path, back, e, he, -, hp, -⟩ := mapM_cases source paths
    · have hg := Completed.gather_of_perm source paths files s.ended (perm_of_idle h hw hr) hf
      rw [Build.ofCompleted, hg] at hb
      exact .inl ⟨files, hf, hb.symm⟩
    · obtain ⟨c, hc, hres⟩ := Completed.exists_mem_of_path source paths path (by simp [he])
      cases hg : Completed.gather s.ended with
      | error e' =>
        rw [Build.ofCompleted, hg] at hb
        cases hb
      | ok files =>
        have hm := (perm_of_idle h hw hr).mem_iff.mpr hc
        have hok := Completed.isOk_of_gather s.ended files hg c hm
        rw [hres, hp] at hok
        cases hok
  | @failed c e hr hc he =>
    obtain ⟨path, hp, hres⟩ := result_of_ended h c hc
    exact .inr ⟨path, hp, e, hres.symm.trans he, rfl⟩

theorem outcome_of_readable (policy : Policy) (hread : ∀ path ∈ paths, (source path).isOk = true)
    (h : Reachable source paths workers s) (r : Except ReadError Build)
    (ho : Outcome policy s r) :
    ∃ files, paths.map source = files.map .ok ∧ r = .ok (Build.ofScanned policy files) := by
  obtain hbuilt | ⟨path, hp, e, he, -⟩ := outcome_cases policy h r ho
  · exact hbuilt
  · exact absurd hread (Build.not_readable source paths path hp e he)

theorem outcome_ok_iff (policy : Policy) (h : Reachable source paths workers s)
    (r : Except ReadError Build) (ho : Outcome policy s r) :
    (∃ b, r = .ok b) ↔ ∀ path ∈ paths, (source path).isOk = true := by
  obtain ⟨files, hf, rfl⟩ | ⟨path, hp, e, he, rfl⟩ := outcome_cases policy h r ho
  · exact ⟨fun _ => isOk_of_map_eq source paths files hf, fun _ => ⟨_, rfl⟩⟩
  · have hno := Build.not_readable source paths path hp e he
    simp [hno]

theorem outcome_built (policy : Policy) (h : Reachable source paths workers s) (b : Build)
    (ho : Outcome policy s (.ok b)) : Build.sequential policy source paths = .ok b ∧
      ∃ files : List ScannedFile,
        paths.map source = files.map .ok ∧ b.files = files.map (·.file) := by
  obtain ⟨files, hf, hb⟩ | ⟨path, hp, e, he, hb⟩ := outcome_cases policy h _ ho
  · obtain rfl := Except.ok.inj hb
    exact ⟨Build.sequential_of_readable policy source paths files hf, files, hf, rfl⟩
  · cases hb

theorem outcome_failed (policy : Policy) (h : Reachable source paths workers s) (e : ReadError)
    (ho : Outcome policy s (.error e)) : ∃ path ∈ paths, source path = .error e := by
  obtain ⟨files, -, hb⟩ | ⟨path, hp, e', he, hb⟩ := outcome_cases policy h _ ho
  · cases hb
  · obtain rfl := Except.error.inj hb
    exact ⟨path, hp, he⟩

theorem outcome_of_single (policy : Policy) (h : Reachable source paths workers s)
    (r : Except ReadError Build) (ho : Outcome policy s r)
    (hone : ∃! p, p ∈ paths ∧ (source p).isOk = false) :
    r = Build.sequential policy source paths := by
  obtain ⟨files, hf, rfl⟩ | ⟨path, hp, e, he, rfl⟩ := outcome_cases policy h r ho
  · rw [Build.sequential_of_readable policy source paths files hf]
  · rw [Build.sequential_of_single policy source paths path hp e he hone]

end Schedule

namespace Build

/-- In whatever order the scans run on however many workers, what comes of them is what one worker
makes of the files one after the other. Only of several failures another one may be reported. -/
theorem schedule_agrees (policy : Policy) (source : Source) (paths : List Path) (workers : Nat) :
    ((∃ b, sequential policy source paths = .ok b) ↔
      ∀ path ∈ paths, (source path).isOk = true) ∧
    (∀ e, sequential policy source paths = .error e → ∃ front path back,
      paths = front ++ path :: back ∧ (∀ p ∈ front, (source p).isOk = true) ∧
      source path = .error e) ∧
    (∀ s, Schedule.Reachable source paths workers s →
      ((∃ r, Schedule.Outcome policy s r) ∨ ∃ t, Schedule.Step source workers s t) ∧
      ∀ r, Schedule.Outcome policy s r →
        ((∃ b, r = .ok b) ↔ ∀ path ∈ paths, (source path).isOk = true) ∧
        (∀ b, r = .ok b → sequential policy source paths = .ok b ∧
          ∃ files : List ScannedFile,
            paths.map source = files.map .ok ∧ b.files = files.map (·.file)) ∧
        (∀ e, r = .error e → ∃ path ∈ paths, source path = .error e) ∧
        ((∃! path, path ∈ paths ∧ (source path).isOk = false) →
          r = sequential policy source paths)) ∧
    (WellFounded fun t s => Schedule.Step source workers s t) ∧
    (∃ s, Schedule.Reachable source paths workers s ∧
      Schedule.Outcome policy s (parallel policy source paths)) ∧
    parallel policy source paths = sequential policy source paths := by
  refine ⟨sequential_ok_iff policy source paths, sequential_error policy source paths, ?_,
    Schedule.wellFounded_step source workers,
    Schedule.exists_parallel policy source paths workers,
    parallel_eq_sequential policy source paths⟩
  intro s hs
  refine ⟨Schedule.exists_outcome_or_step policy hs, ?_⟩
  intro r hr
  refine ⟨Schedule.outcome_ok_iff policy hs r hr, ?_, ?_, Schedule.outcome_of_single policy hs r hr⟩
  · intro b hb
    subst hb
    exact Schedule.outcome_built policy hs b hr
  · intro e he
    subst he
    exact Schedule.outcome_failed policy hs e hr

end Build
end CallGraph
