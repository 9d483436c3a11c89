import CallGraph.Proofs.Resemblance
import CallGraph.Text.Bytes
import Mathlib.Data.List.Basic
import Mathlib.Logic.Function.Iterate

namespace CallGraph.Lines

theorem count_nil : count [] = 0 := by
  rw [count]
  rfl

theorem count_of_ne_nil (bs : Bytes) (h : bs ≠ []) : count bs = count (next bs) + 1 := by
  rw [count, dif_neg h]

/-- In front of others, only a line feed makes one more line. -/
theorem count_cons (b : UInt8) (bs : Bytes) :
    count (b :: bs) = if b = lineFeed ∨ bs = [] then count bs + 1 else count bs := by
  rw [count_of_ne_nil (b :: bs) (List.cons_ne_nil b bs)]
  by_cases hb : b = lineFeed
  · simp [next, hb]
  · have hnext : next (b :: bs) = next bs := by simp [next, hb]
    rw [hnext]
    by_cases hbs : bs = []
    · simp [hbs, next]
    · simp [hb, hbs, count_of_ne_nil bs hbs]

/-- Bytes without a line feed lengthen the line that follows them. -/
theorem count_append (us bs : Bytes) (hne : us ≠ []) (hus : ∀ b ∈ us, b ≠ lineFeed) :
    count (us ++ bs) = if bs = [] then 1 else count bs := by
  induction us with
  | nil => exact absurd rfl hne
  | cons u us ih =>
    have hu : u ≠ lineFeed := hus u (by simp)
    rw [List.cons_append, count_cons]
    by_cases hnil : us = []
    · subst hnil
      by_cases hbs : bs = [] <;> simp [hu, hbs, count_nil]
    · have hrest := ih hnil fun b hb => hus b (by simp [hb])
      simp [hu, hnil, hrest]

theorem count_of_resembles {bs cs : Bytes} (h : Resembles bs cs) : count bs = count cs := by
  induction h with
  | nil => rfl
  | @ascii b c bs cs same ascii h ih =>
    obtain rfl : b = c := UInt8.toNat_inj.mp same
    simp only [count_cons, ih, h.nil_iff]
  | @other us vs bs cs hu hv hus hvs h ih =>
    have hfeed : ∀ ws : Bytes, (∀ b ∈ ws, 128 ≤ Symbol.code b) → ∀ b ∈ ws, b ≠ lineFeed := by
      rintro ws hws b hb rfl
      exact absurd (hws _ hb) (by decide)
    rw [count_append us bs hu (hfeed us hus), count_append vs cs hv (hfeed vs hvs), ih]
    simp only [h.nil_iff]

/-- Something stands behind the last line feed. -/
def Unended (bs : Bytes) : Prop := bs ≠ [] ∧ bs.getLast? ≠ some lineFeed

instance (bs : Bytes) : Decidable (Unended bs) := inferInstanceAs (Decidable (_ ∧ _))

theorem not_unended_nil : ¬Unended [] := fun h => h.1 rfl

theorem unended_append (x y : Bytes) :
    Unended (x ++ y) ↔ if y = [] then Unended x else Unended y := by
  split_ifs with hy
  · rw [hy, List.append_nil]
  · rw [Unended, Unended, List.getLast?_append_of_ne_nil x hy]
    simp [hy]

/-- The reads take a line each, until there is nothing left. -/
theorem iterate_next_eq_nil_iff (bs : Bytes) (k : Nat) : next^[k] bs = [] ↔ count bs ≤ k := by
  induction k generalizing bs with
  | zero =>
    by_cases h : bs = []
    · simp [h, count_nil]
    · simp [h, count_of_ne_nil bs h]
  | succ k ih =>
    rw [Function.iterate_succ_apply, ih]
    by_cases h : bs = []
    · simp [h, next, count_nil]
    · rw [count_of_ne_nil bs h, Nat.add_le_add_iff_right]

theorem count_eq_feeds (bs : Bytes) :
    count bs = bs.count lineFeed + if Unended bs then 1 else 0 := by
  induction bs with
  | nil => rw [count_nil, if_neg not_unended_nil, List.count_nil]
  | cons b bs ih =>
    rw [count_cons, ih, List.count_cons]
    by_cases hbs : bs = []
    · subst hbs
      by_cases hb : b = lineFeed <;> simp [Unended, hb]
    · have hcut := unended_append [b] bs
      rw [if_neg hbs, List.singleton_append] at hcut
      simp only [hcut]
      by_cases hb : b = lineFeed
      · simp only [hb, true_or, if_true, beq_self_eq_true]
        omega
      · simp [hbs, hb]

/-- Lines are counted by reading one after the other until nothing is left: as many reads as there
are line feeds, and one more for what stands behind the last of them. So the counts of two texts add
up, but for a line that begins in the first and ends in the second. -/
theorem count_exact (bs : Bytes) :
    (∀ reads, next^[reads] bs = [] ↔ count bs ≤ reads) ∧
    count bs = bs.count lineFeed + (if Unended bs then 1 else 0) ∧
    ∀ rest, count (bs ++ rest) + (if Unended bs ∧ rest ≠ [] then 1 else 0) =
      count bs + count rest := by
  refine ⟨iterate_next_eq_nil_iff bs, count_eq_feeds bs, ?_⟩
  intro rest
  by_cases hrest : rest = []
  · simp [hrest, count_nil]
  · have hcut := unended_append bs rest
    rw [if_neg hrest] at hcut
    rw [count_eq_feeds (bs ++ rest), count_eq_feeds bs, count_eq_feeds rest, List.count_append]
    simp only [hcut, hrest, ne_eq, not_false_eq_true, and_true]
    omega

end CallGraph.Lines
