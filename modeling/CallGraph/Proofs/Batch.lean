import CallGraph.Scan.FanOut
import Mathlib.Tactic.Common

namespace CallGraph.Batch

theorem count_pos (workers : Nat) : 0 < count workers := by
  unfold count
  omega

theorem stop_of_lt (items workers i : Nat) (hi : i + 1 < count workers) :
    stop items workers i = (i + 1) * size items workers := by
  have hne : i + 1 ≠ count workers := by omega
  rw [stop, if_neg hne, start, Nat.succ_mul]

theorem stop_last (items workers k : Nat) (hk : count workers = k + 1) :
    stop items workers k = items := by
  rw [stop, if_pos hk.symm]

/-- Batches from the first on, without the last, are a front part of the items. -/
theorem flatten_front {α : Type} (items : List α) (workers k : Nat) (hk : k < count workers) :
    ((List.range k).map fun i =>
      slice items (start items.length workers i) (stop items.length workers i)).flatten =
      items.take (start items.length workers k) := by
  induction k with
  | zero => simp [start]
  | succ k ih =>
    rw [List.range_succ, List.map_append, List.flatten_append, ih (by omega)]
    simp only [List.map_cons, List.map_nil, List.flatten_singleton, slice]
    rw [stop_of_lt _ _ _ hk, ← List.take_add]
    congr 1
    simp only [start, Nat.succ_mul]
    omega

/-- Nothing is lost and nothing is moved when items are shared out. -/
theorem partition_flatten {α : Type} (items : List α) (workers : Nat) :
    (partition items workers).flatten = items := by
  obtain ⟨k, hk⟩ := Nat.exists_eq_add_one.mpr (count_pos workers)
  have hlt : k < count workers := by omega
  rw [partition, hk, List.range_succ, List.map_append, List.flatten_append,
    flatten_front items workers k hlt]
  simp only [List.map_cons, List.map_nil, List.flatten_singleton, slice]
  rw [stop_last _ _ k hk, ← List.length_drop, List.take_length, List.take_append_drop]

theorem start_add_size_le (items workers i : Nat) (hi : i < count workers) :
    start items workers i + size items workers ≤ items := by
  calc start items workers i + size items workers
      = (i + 1) * size items workers := by rw [start, Nat.succ_mul]
    _ ≤ count workers * size items workers := Nat.mul_le_mul_right _ hi
    _ ≤ items := Nat.mul_div_le items (count workers)

theorem start_le_stop (items workers i : Nat) (hi : i < count workers) :
    start items workers i ≤ stop items workers i ∧ stop items workers i ≤ items := by
  have hle := start_add_size_le items workers i hi
  unfold stop
  split_ifs <;> omega

theorem length_slice {α : Type} (items : List α) (start stop : Nat) (h : stop ≤ items.length) :
    (slice items start stop).length = stop - start := by
  rw [slice, List.length_take, List.length_drop]
  omega

theorem map_length_partition {α : Type} (items : List α) (workers : Nat) :
    (partition items workers).map List.length =
      List.replicate (count workers - 1) (size items.length workers) ++
        [items.length - (count workers - 1) * size items.length workers] := by
  have hbatch : ∀ i < count workers,
      (slice items (start items.length workers i) (stop items.length workers i)).length =
        stop items.length workers i - start items.length workers i := fun i hi =>
    length_slice items _ _ (start_le_stop items.length workers i hi).2
  obtain ⟨k, hk⟩ := Nat.exists_eq_add_one.mpr (count_pos workers)
  have hfront : ∀ i ∈ List.range k,
      (slice items (start items.length workers i) (stop items.length workers i)).length =
        size items.length workers := by
    intro i hi
    have hlt := List.mem_range.mp hi
    rw [hbatch i (by omega), stop_of_lt _ _ _ (by omega), start, Nat.succ_mul,
      Nat.add_sub_cancel_left]
  rw [partition, hk, List.map_map, List.range_succ, List.map_append, Nat.add_sub_cancel]
  congr 1
  · exact List.eq_replicate_iff.mpr ⟨by simp, List.forall_mem_map.mpr hfront⟩
  · rw [List.map_singleton, Function.comp_apply, hbatch k (by omega),
      stop_last _ _ k hk, start]

/-! The bounds as a machine computes them, in words of 64 bits that wrap around. -/

namespace Word

def count (workers : UInt64) : UInt64 := if workers = 0 then 1 else workers

def size (items workers : UInt64) : UInt64 := items / count workers

def start (items workers i : UInt64) : UInt64 := i * size items workers

def stop (items workers i : UInt64) : UInt64 :=
  if i = count workers - 1 then items else start items workers i + size items workers

theorem toNat_count (workers : UInt64) : (count workers).toNat = Batch.count workers.toNat := by
  unfold count Batch.count
  split_ifs with h
  · rw [h]
    rfl
  · have hne : workers.toNat ≠ 0 := fun h0 => h (UInt64.toNat_inj.mp h0)
    omega

theorem toNat_size (items workers : UInt64) :
    (size items workers).toNat = Batch.size items.toNat workers.toNat := by
  rw [size, UInt64.toNat_div, toNat_count, Batch.size]

theorem toNat_start (items workers i : UInt64) (hi : i.toNat < Batch.count workers.toNat) :
    (start items workers i).toNat = Batch.start items.toNat workers.toNat i.toNat := by
  have hle := start_add_size_le items.toNat workers.toNat i.toNat hi
  have hlt := items.toNat_lt
  rw [start, UInt64.toNat_mul, toNat_size, Nat.mod_eq_of_lt]
  · rfl
  · rw [Batch.start] at hle
    omega

theorem toNat_stop (items workers i : UInt64) (hi : i.toNat < Batch.count workers.toNat) :
    (stop items workers i).toNat = Batch.stop items.toNat workers.toNat i.toNat := by
  have hle := start_add_size_le items.toNat workers.toNat i.toNat hi
  have hlt := items.toNat_lt
  have hlast : i = count workers - 1 ↔ i.toNat + 1 = Batch.count workers.toNat := by
    have hpos := count_pos workers.toNat
    have hone : (1 : UInt64) ≤ count workers := by
      rw [UInt64.le_iff_toNat_le, toNat_count]
      exact hpos
    rw [← UInt64.toNat_inj, UInt64.toNat_sub_of_le _ _ hone, toNat_count]
    change i.toNat = _ - 1 ↔ _
    omega
  unfold stop Batch.stop
  split_ifs with h1 h2 h2
  · rfl
  · exact absurd (hlast.mp h1) h2
  · exact absurd (hlast.mpr h2) h1
  · rw [UInt64.toNat_add, toNat_start _ _ _ hi, toNat_size, Nat.mod_eq_of_lt]
    omega

end Word

/-- Items are shared out to `max 1 workers` batches, which put together are the items again. The
batches have the same size, but for the last, which takes what is left over. The bounds of each batch
lie within the items and in order, and computed in words they do not wrap around. -/
theorem partition_exact {α : Type} (items : List α) (workers : Nat) :
    (partition items workers).length = max 1 workers ∧
    (partition items workers).flatten = items ∧
    (partition items workers).map List.length =
      List.replicate (max 1 workers - 1) (items.length / max 1 workers) ++
        [items.length - (max 1 workers - 1) * (items.length / max 1 workers)] ∧
    (∀ i < max 1 workers,
      start items.length workers i ≤ stop items.length workers i ∧
      stop items.length workers i ≤ items.length ∧
      i * (items.length / max 1 workers) ≤ items.length ∧
      start items.length workers i + items.length / max 1 workers ≤ items.length) ∧
    ∀ n w i : UInt64, n.toNat = items.length → w.toNat = workers → i.toNat < max 1 workers →
      (Word.start n w i).toNat = start items.length workers i.toNat ∧
      (Word.stop n w i).toNat = stop items.length workers i.toNat := by
  refine ⟨?_, partition_flatten items workers, map_length_partition items workers, ?_, ?_⟩
  · rw [partition, List.length_map, List.length_range]
    rfl
  · intro i hi
    have hsize := start_add_size_le items.length workers i hi
    obtain ⟨hstart, hstop⟩ := start_le_stop items.length workers i hi
    exact ⟨hstart, hstop, Nat.le_trans (Nat.le_add_right _ _) hsize, hsize⟩
  · intro n w i hn hw hi
    subst hw
    rw [← hn]
    exact ⟨Word.toNat_start n w i hi, Word.toNat_stop n w i hi⟩

/-- More workers than items, and as many workers as a word can count. -/
theorem partition_exact_many_workers :
    (partition ['a', 'b'] 4).map List.length = [0, 0, 0, 2] ∧
    (18446744073709551614 : UInt64).toNat < max 1 18446744073709551615 ∧
    (Word.stop 2 18446744073709551615 18446744073709551614).toNat = 2 := by
  refine ⟨(partition_exact ['a', 'b'] 4).2.2.1, by decide, ?_⟩
  have hwords := (partition_exact ['a', 'b'] 18446744073709551615).2.2.2.2
  exact (hwords 2 18446744073709551615 18446744073709551614 rfl rfl (by decide)).2

end CallGraph.Batch
