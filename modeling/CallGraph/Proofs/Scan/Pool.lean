import CallGraph.Proofs.Batch
import CallGraph.Proofs.Scan.Interleaving
import CallGraph.Scan.Pool

namespace CallGraph

/-- The messages that a worker has still to send, in order. -/
def Worker.pending (source : Source) (w : Worker) : List Message :=
  w.held.toList ++ w.waiting.map (Message.ofPath source)

namespace Pool

variable {source : Source} {paths : List Path} {workers : Nat} {s t : Pool}

/-- The messages for the paths of each batch. -/
def batches (source : Source) (paths : List Path) (workers : Nat) : List (List Message) :=
  (Batch.partition paths workers).map (·.map (Message.ofPath source))

theorem batches_flatten (source : Source) (paths : List Path) (workers : Nat) :
    (batches source paths workers).flatten = paths.map (Message.ofPath source) := by
  rw [batches, ← List.map_flatten, Batch.partition_flatten]

/-- What holds of a pool at any time: the messages sent so far are drawn from the batches, and what
is left of the batches is with the workers. -/
structure Valid (source : Source) (paths : List Path) (workers : Nat) (s : Pool) : Prop where
  capacity : s.capacity = max 1 paths.length
  drawn : Drawn (batches source paths workers) (s.received ++ s.channel)
    (s.workers.map (Worker.pending source))
  closed : s.isOpen = false → ∀ w ∈ s.workers, w = ⟨none, []⟩

theorem valid_start (source : Source) (paths : List Path) (workers : Nat) :
    Valid source paths workers (start paths workers) := by
  refine ⟨rfl, ?_, nofun⟩
  have hp : (start paths workers).workers.map (Worker.pending source) =
      batches source paths workers := by
    simp [start, batches, Worker.pending, Function.comp_def]
  rw [hp]
  exact .start

theorem isOpen_of_worker (h : Valid source paths workers s) {i : Nat} {w : Worker}
    (hi : s.workers[i]? = some w) (hw : w ≠ ⟨none, []⟩) : s.isOpen = true := by
  cases ho : s.isOpen with
  | true => rfl
  | false => exact absurd (h.closed ho w (List.mem_of_getElem? hi)) hw

theorem set_eq_self {α : Type} (xs : List α) (i : Nat) (x : α) (hi : xs[i]? = some x) :
    xs.set i x = xs := by
  obtain ⟨hlt, rfl⟩ := List.getElem?_eq_some_iff.mp hi
  exact List.set_getElem_self hlt

/-- A scan moves a message from the worker's list into its hand. -/
theorem pending_scan {i : Nat} {path : Path} {rest : List Path}
    (next : s.workers[i]? = some ⟨none, path :: rest⟩) :
    (s.workers.set i ⟨some (Message.ofPath source path), rest⟩).map (Worker.pending source) =
      s.workers.map (Worker.pending source) := by
  have hp : (s.workers.map (Worker.pending source))[i]? =
      some (Worker.pending source ⟨some (Message.ofPath source path), rest⟩) := by
    simp [next, Worker.pending]
  rw [List.map_set, set_eq_self _ _ _ hp]

theorem pending_held {i : Nat} {m : Message} {rest : List Path}
    (ready : s.workers[i]? = some ⟨some m, rest⟩) :
    (s.workers.map (Worker.pending source))[i]? =
      some (m :: Worker.pending source ⟨none, rest⟩) := by
  simp [ready, Worker.pending]

theorem valid_step (h : Valid source paths workers s) (hs : Step source s t) :
    Valid source paths workers t := by
  cases hs with
  | @scan i path rest next =>
    have ho := isOpen_of_worker h next (by simp)
    refine ⟨h.capacity, ?_, fun hc => absurd ho (by simpa using hc)⟩
    change Drawn _ _ ((s.workers.set i _).map _)
    rw [pending_scan next]
    exact h.drawn
  | @send i m rest ready isOpen room =>
    refine ⟨h.capacity, ?_, fun hc => absurd isOpen (by simpa using hc)⟩
    change Drawn _ (s.received ++ (s.channel ++ [m])) ((s.workers.set i _).map _)
    rw [List.map_set, ← List.append_assoc]
    exact .take h.drawn (pending_held ready)
  | @receive m ms first =>
    refine ⟨h.capacity, ?_, h.closed⟩
    have hd := h.drawn
    rw [first] at hd
    change Drawn _ (s.received ++ [m] ++ ms) _
    rw [List.append_assoc]
    exact hd
  | close isOpen done => exact ⟨h.capacity, h.drawn, fun _ => done⟩

theorem valid_of_reachable (h : Reachable source paths workers s) :
    Valid source paths workers s := by
  induction h with
  | start => exact valid_start source paths workers
  | step _ hs ih => exact valid_step ih hs

/-- Every path is accounted for: received, in the channel or with its worker. -/
theorem length_eq (h : Valid source paths workers s) : paths.length =
    s.received.length + s.channel.length +
      (s.workers.map (Worker.pending source)).flatten.length := by
  have hl := h.drawn.length
  rw [batches_flatten, List.length_map, List.length_append] at hl
  exact hl

/-- There is room in the channel for every message that a worker holds. -/
theorem room_of_held (h : Valid source paths workers s) {i : Nat} {m : Message}
    {rest : List Path} (ready : s.workers[i]? = some ⟨some m, rest⟩) :
    s.channel.length < s.capacity := by
  have hm : m ∈ (s.workers.map (Worker.pending source)).flatten := by
    rw [List.mem_flatten]
    refine ⟨_, List.mem_map_of_mem (List.mem_of_getElem? ready), ?_⟩
    simp [Worker.pending]
  have hpos := List.length_pos_of_mem hm
  have hl := length_eq h
  rw [h.capacity]
  omega

theorem exists_step (h : Valid source paths workers s) (hf : ¬s.IsFinal) :
    ∃ t, Step source s t := by
  cases hc : s.channel with
  | cons m ms => exact ⟨_, .receive hc⟩
  | nil =>
    have ho : s.isOpen = true := by
      cases ho : s.isOpen with
      | true => rfl
      | false => exact absurd ⟨ho, hc⟩ hf
    by_cases hd : ∀ w ∈ s.workers, w = ⟨none, []⟩
    · exact ⟨_, .close ho hd⟩
    · push Not at hd
      obtain ⟨w, hw, hne⟩ := hd
      obtain ⟨i, hi⟩ := List.getElem?_of_mem hw
      obtain ⟨held, waiting⟩ := w
      cases held with
      | some m => exact ⟨_, .send hi ho (room_of_held h hi)⟩
      | none =>
        cases waiting with
        | nil => exact absurd rfl hne
        | cons path rest => exact ⟨_, .scan hi⟩

theorem interleaving_of_final (h : Valid source paths workers s) (hf : s.IsFinal) :
    Interleaving (batches source paths workers) s.received := by
  refine ⟨s.workers.map (Worker.pending source), ?_, ?_⟩
  · simpa only [hf.2, List.append_nil] using h.drawn
  · intro l hl
    obtain ⟨w, hw, rfl⟩ := List.mem_map.mp hl
    rw [h.closed hf.1 w hw]
    rfl

theorem received_perm (h : Valid source paths workers s) (hf : s.IsFinal) :
    s.received.Perm (paths.map (Message.ofPath source)) := by
  rw [← batches_flatten source paths workers]
  exact (interleaving_of_final h hf).perm

/-- A single worker keeps the order of the paths. -/
theorem received_eq (h : Valid source paths workers s) (hf : s.IsFinal) (hw : workers ≤ 1) :
    s.received = paths.map (Message.ofPath source) := by
  have hi := interleaving_of_final h hf
  have hb := batches_flatten source paths workers
  have hone : Batch.count workers = 1 := by
    unfold Batch.count
    omega
  simp only [batches, Batch.partition, hone, List.range_one, List.map_cons, List.map_nil,
    List.flatten_singleton] at hi hb
  rw [hi.eq_of_single, hb]

theorem filterMap_record (source : Source) (paths : List Path) :
    (paths.map (Message.ofPath source)).filterMap Message.record? =
      (paths.filterMap fun path => (source path).toOption).map FileRecord.ofScanned := by
  rw [List.filterMap_map, List.map_filterMap]
  congr 1
  funext path
  cases hr : source path <;> simp [Message.ofPath, Message.record?, Except.toOption, hr]

theorem filterMap_skipped (source : Source) (paths : List Path) :
    (paths.map (Message.ofPath source)).filterMap Message.skipped? =
      paths.filter fun path => !(source path).isOk := by
  rw [List.filterMap_map, ← List.filterMap_eq_filter]
  congr 1
  funext path
  cases hr : source path <;>
    simp [Message.ofPath, Message.skipped?, Except.isOk, Except.toBool, Option.guard, hr]

/-- How much is left to do. Each step takes something off it: a scan leaves one path less to be
scanned, and a message that is sent counts once in the channel and twice before. -/
def work (source : Source) (s : Pool) : Nat :=
  (s.workers.map (·.waiting)).flatten.length +
    2 * (s.workers.map (Worker.pending source)).flatten.length +
    s.channel.length + s.isOpen.toNat

theorem work_lt (hs : Step source s t) : t.work source < s.work source := by
  cases hs with
  | @scan i path rest next =>
    have hw : (s.workers.map (·.waiting))[i]? = some (path :: rest) := by simp [next]
    have hl := (perm_flatten_set _ i path rest hw).length_eq
    rw [List.length_cons] at hl
    simp only [work, pending_scan next]
    simp only [List.map_set]
    omega
  | @send i m rest ready isOpen room =>
    have hw : (s.workers.map (·.waiting))[i]? = some rest := by simp [ready]
    have hl := (perm_flatten_set (s.workers.map (Worker.pending source)) i m _
      (pending_held ready)).length_eq
    rw [List.length_cons] at hl
    simp only [work, List.map_set, set_eq_self _ _ _ hw, List.length_append,
      List.length_singleton]
    omega
  | receive first => simp [work, first]
  | close isOpen done => simp [work, isOpen]

theorem wellFounded_step (source : Source) : WellFounded fun t s => Step source s t :=
  Subrelation.wf work_lt (measure (work source)).wf

/-- A worker may send the messages for its whole batch before anything else happens. -/
theorem reachable_batch (h : Reachable source paths workers s) (i : Nat) (batch : List Path)
    (hi : s.workers[i]? = some ⟨none, batch⟩) : Reachable source paths workers { s with
      workers := s.workers.set i ⟨none, []⟩
      channel := s.channel ++ batch.map (Message.ofPath source) } := by
  induction batch generalizing s with
  | nil =>
    rw [set_eq_self _ _ _ hi, List.map_nil, List.append_nil]
    exact h
  | cons path rest ih =>
    have hlt : i < s.workers.length := (List.getElem?_eq_some_iff.mp hi).1
    have h1 := Reachable.step h (.scan hi)
    have hr : (s.workers.set i ⟨some (Message.ofPath source path), rest⟩)[i]? =
        some ⟨some (Message.ofPath source path), rest⟩ := by simp [hlt]
    have hv := valid_of_reachable h1
    have h2 := Reachable.step h1
      (.send hr (isOpen_of_worker hv hr (by simp)) (room_of_held hv hr))
    have h3 := ih h2 (by simp [hlt])
    simpa using h3

theorem reachable_batches (bs : List (List Path)) (done : List Worker)
    (h : Reachable source paths workers s) (hw : s.workers = done ++ bs.map (⟨none, ·⟩)) :
    Reachable source paths workers { s with
      workers := done ++ bs.map fun _ => ⟨none, []⟩
      channel := s.channel ++ bs.flatMap (·.map (Message.ofPath source)) } := by
  induction bs generalizing s done with
  | nil =>
    have hd : s.workers = done := by simpa using hw
    simpa [← hd] using h
  | cons b bs ih =>
    have hi : s.workers[done.length]? = some ⟨none, b⟩ := by simp [hw]
    have h1 := reachable_batch h done.length b hi
    have h2 := ih (done ++ [⟨none, []⟩]) h1 (by simp [hw])
    simpa using h2

theorem reachable_drain (h : Reachable source paths workers s) :
    Reachable source paths workers { s with
      channel := []
      received := s.received ++ s.channel } := by
  obtain ⟨ws, channel, capacity, isOpen, received⟩ := s
  induction channel generalizing received with
  | nil => simpa using h
  | cons m ms ih =>
    have h1 := ih _ (Reachable.step h (.receive rfl))
    simpa using h1

/-- Worker by worker is one of the ways in which a pool can work. -/
theorem exists_run (source : Source) (paths : List Path) (workers : Nat) :
    ∃ s, Reachable source paths workers s ∧ s.IsFinal ∧
      s.report = FanOut.run source paths workers := by
  have h0 : Reachable source paths workers (start paths workers) := .start
  have h1 := reachable_batches (Batch.partition paths workers) [] h0 rfl
  have h2 := Reachable.step h1 (.close rfl (by simp))
  exact ⟨_, reachable_drain h2, ⟨rfl, rfl⟩, rfl⟩

/-- No send has to wait and none fails, a pool never gets stuck and never goes on for ever, and when
it ends it has received one message for each path, those of each batch in their order. -/
theorem fanOut_lossless (source : Source) (paths : List Path) (workers : Nat) :
    (∀ s, Reachable source paths workers s →
      (∀ (i : Nat) m rest, s.workers[i]? = some ⟨some m, rest⟩ →
        s.isOpen = true ∧ s.channel.length < s.capacity) ∧
      (¬s.IsFinal → ∃ t, Step source s t) ∧
      (s.IsFinal →
        Interleaving (batches source paths workers) s.received ∧
        s.report.records.Perm
          ((paths.filterMap fun path => (source path).toOption).map FileRecord.ofScanned) ∧
        s.report.skipped.Perm (paths.filter fun path => !(source path).isOk) ∧
        (workers ≤ 1 → s.received = paths.map (Message.ofPath source)))) ∧
    (WellFounded fun t s => Step source s t) ∧
    ∃ s, Reachable source paths workers s ∧ s.IsFinal ∧
      s.report = FanOut.run source paths workers := by
  refine ⟨?_, wellFounded_step source, exists_run source paths workers⟩
  intro s hr
  have hv := valid_of_reachable hr
  refine ⟨?_, exists_step hv, ?_⟩
  · intro i m rest ready
    exact ⟨isOpen_of_worker hv ready (by simp), room_of_held hv ready⟩
  · intro hf
    have hp := received_perm hv hf
    refine ⟨interleaving_of_final hv hf, ?_, ?_, received_eq hv hf⟩
    · rw [← filterMap_record]
      exact hp.filterMap _
    · rw [← filterMap_skipped]
      exact hp.filterMap _

end Pool
end CallGraph
