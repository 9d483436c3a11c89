import CallGraph.Language
import CallGraph.Proofs.KeyMap
import Mathlib.Algebra.BigOperators.Group.List.Basic
import Mathlib.Algebra.Ring.Nat

namespace CallGraph

/-- The sum of all counts. -/
def KeyMap.total (m : KeyMap Nat) : Nat := (m.entries.map (·.2)).sum

/-- One more of a name is one more in all, wherever the name stands. -/
theorem KeyMap.sum_alterEntries_succ (k : String) (es : List (String × Nat)) :
    ((alterEntries k (fun n => n.getD 0 + 1) es).map (·.2)).sum = (es.map (·.2)).sum + 1 := by
  induction es with
  | nil => rfl
  | cons e es ih =>
    obtain ⟨k', n⟩ := e
    rw [alterEntries]
    split_ifs with hlt heq
    · -- the first of its name
      simp only [List.map_cons, List.sum_cons, Option.getD_none]
      omega
    · simp only [List.map_cons, List.sum_cons, Option.getD_some]
      omega
    · simp only [List.map_cons, List.sum_cons, ih]
      omega

namespace Reference

theorem tally_concat (names : List String) (name : String) :
    tally (names ++ [name]) = (tally names).alter name fun n => n.getD 0 + 1 := by
  rw [tally, List.foldl_append]
  rfl

/-- A tally has the names that occur, each with the number of times that it does. -/
theorem get?_tally (names : List String) (x : String) :
    (tally names).get? x = if x ∈ names then some (names.count x) else none := by
  induction names using List.reverseRecOn with
  | nil => rfl
  | append_singleton names name ih =>
    rw [tally_concat, KeyMap.get?_alter]
    by_cases hx : name = x
    · subst hx
      by_cases hm : name ∈ names
      · simp [ih, hm]
      · simp [ih, hm, List.count_eq_zero_of_not_mem hm]
    · simp [ih, hx, Ne.symm hx]

theorem getD_tally (names : List String) (x : String) :
    ((tally names).get? x).getD 0 = names.count x := by
  rw [get?_tally]
  split_ifs with hx
  · rfl
  · exact (List.count_eq_zero_of_not_mem hx).symm

/-- The tally of names one after the other is the sum of the tallies, name by name. -/
theorem get?_tally_append (names names' : List String) (x : String) :
    (tally (names ++ names')).get? x =
      Option.merge (· + ·) ((tally names).get? x) ((tally names').get? x) := by
  rw [get?_tally, get?_tally, get?_tally, List.count_append]
  by_cases hx : x ∈ names <;> by_cases hx' : x ∈ names' <;>
    simp [hx, hx', List.count_eq_zero_of_not_mem]

theorem mem_keys_tally (names : List String) (x : String) : x ∈ (tally names).keys ↔ x ∈ names := by
  rw [KeyMap.mem_keys_iff, get?_tally]
  split_ifs with hx <;> simp [hx]

theorem total_tally (names : List String) : (tally names).total = names.length := by
  induction names using List.reverseRecOn with
  | nil => rfl
  | append_singleton names name ih =>
    have hstep := KeyMap.sum_alterEntries_succ name (tally names).entries
    rw [tally_concat, List.length_append, List.length_singleton, ← ih]
    exact hstep

theorem get?_tally_eq_some_iff (names : List String) (name : String) (n : Nat) :
    (tally names).get? name = some n ↔ name ∈ names ∧ n = names.count name := by
  rw [get?_tally]
  split_ifs with hname
  · simp [hname, eq_comm]
  · simp [hname]

/-- A tally keeps all of a list but the order. -/
theorem tally_eq_iff (names names' : List String) :
    tally names' = tally names ↔ names'.Perm names := by
  constructor
  · intro heq
    rw [List.perm_iff_count]
    intro name
    rw [← getD_tally, ← getD_tally, heq]
  · intro hperm
    apply KeyMap.ext_get?
    intro name
    simp only [get?_tally, hperm.mem_iff, hperm.count_eq]

/-- The tally with its counts in machine words. -/
def Word.tally (names : List String) : KeyMap UInt64 :=
  names.foldl (fun m name => m.alter name fun n => n.getD 0 + 1) .empty

theorem Word.tally_concat (names : List String) (name : String) :
    tally (names ++ [name]) = (tally names).alter name fun n => n.getD 0 + 1 := by
  rw [tally, List.foldl_append]
  rfl

/-- No count is greater than the number of names, so that none wraps around. -/
theorem Word.get?_tally (names : List String) (hlength : names.length < 2 ^ 64) (x : String) :
    ((tally names).get? x).map UInt64.toNat = (Reference.tally names).get? x := by
  induction names using List.reverseRecOn generalizing x with
  | nil => rfl
  | append_singleton names name ih =>
    rw [List.length_append, List.length_singleton] at hlength
    have hold := ih (by omega) name
    have hcount : ((Reference.tally names).get? name).getD 0 ≤ names.length := by
      rw [getD_tally]
      exact List.count_le_length
    rw [tally_concat, Reference.tally_concat, KeyMap.get?_alter, KeyMap.get?_alter]
    split_ifs with hx
    · rw [← hold] at hcount ⊢
      cases hget : (tally names).get? name with
      | none => rfl
      | some n =>
        rw [hget] at hcount
        have hfits : n.toNat + 1 < 2 ^ 64 := Nat.lt_of_le_of_lt (Nat.succ_le_succ hcount) hlength
        have hsum : (n + 1).toNat = n.toNat + 1 := by
          rw [UInt64.toNat_add]
          exact Nat.mod_eq_of_lt hfits
        exact congrArg some hsum
    · exact ih (by omega) x

/-- A tally lists the names that occur, each once and in the order of their bytes, with the number
of times that each does. The counts add up to the number of all names, and fit the words of a
machine if that number does. The order of the names makes no difference, and nothing else is lost:
tallies are equal for the same names in another order only. Names one after the other add up, name
by name. -/
theorem tally_exact (names : List String) :
    (tally names).keys.Pairwise (fun a b => Bytes.ofString a < Bytes.ofString b) ∧
    (∀ name, name ∈ (tally names).keys ↔ name ∈ names) ∧
    (∀ name n, (tally names).get? name = some n ↔ name ∈ names ∧ n = names.count name) ∧
    (∀ name, (tally names).get? name ≠ some 0) ∧
    (tally names).total = names.length ∧
    (∀ names', tally names' = tally names ↔ names'.Perm names) ∧
    (∀ names' name, (tally (names ++ names')).get? name =
      Option.merge (· + ·) ((tally names).get? name) ((tally names').get? name)) ∧
    (names.length < 2 ^ 64 → ∀ name,
      ((Word.tally names).get? name).map UInt64.toNat = (tally names).get? name) := by
  refine ⟨List.pairwise_map.mpr (tally names).sorted, mem_keys_tally names,
    get?_tally_eq_some_iff names, ?_, total_tally names, tally_eq_iff names,
    get?_tally_append names, Word.get?_tally names⟩
  intro name hzero
  obtain ⟨hname, hcount⟩ := (get?_tally_eq_some_iff names name 0).mp hzero
  exact absurd (List.count_pos_iff.mpr hname) (by omega)

/-- An empty name, a name beyond ASCII and one that occurs twice. -/
theorem tally_exact_repeated :
    ["b", "", "é", "b"].length < 2 ^ 64 ∧
    ((Word.tally ["b", "", "é", "b"]).get? "b").map UInt64.toNat = some 2 := by
  have hlength : ["b", "", "é", "b"].length < 2 ^ 64 := by decide
  obtain ⟨-, -, hget, -, -, -, -, hwords⟩ := tally_exact ["b", "", "é", "b"]
  exact ⟨hlength, (hwords hlength "b").trans ((hget "b" 2).mpr (by decide))⟩

end Reference
end CallGraph
