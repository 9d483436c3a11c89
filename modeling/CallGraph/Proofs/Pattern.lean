import CallGraph.Pattern
import Mathlib.Tactic.Common

namespace CallGraph

variable {α : Type} [Symbol α]

/-- Apart from `nameStart`, which is a part of `word`, no symbol is in two classes. -/
theorem SymbolClass.has_excl (c d : SymbolClass) (hc : c ≠ .nameStart) (hd : d ≠ .nameStart)
    (hne : c ≠ d) (x : α) (hx : c.has x = true) : d.has x = false := by
  unfold SymbolClass.has at *
  generalize Symbol.code x = n at *
  cases c <;> cases d <;>
    simp only [hasCode, isLetter, isDigit, ne_eq, not_true_eq_false, Bool.or_eq_true,
      Bool.and_eq_true, decide_eq_true_eq, beq_iff_eq, Bool.or_eq_false_iff,
      Bool.and_eq_false_iff, decide_eq_false_iff_not, beq_eq_false_iff_ne] at * <;> omega

theorem SymbolClass.nameStart_iff (x : α) : nameStart.has x = true ↔
    word.has x = true ∧ isDigit (Symbol.code x) = false := by
  unfold SymbolClass.has
  generalize Symbol.code x = n
  simp only [hasCode, isLetter, isDigit, Bool.or_eq_true, Bool.and_eq_true, decide_eq_true_eq,
    beq_iff_eq, Bool.and_eq_false_iff, decide_eq_false_iff_not]
  omega

theorem SymbolClass.lt_of_has (c : SymbolClass) (x : α) (h : c.has x = true) :
    Symbol.code x < 128 := by
  unfold SymbolClass.has at h
  cases c <;>
    simp only [hasCode, isLetter, isDigit, Bool.or_eq_true, Bool.and_eq_true, decide_eq_true_eq,
      beq_iff_eq] at h <;> omega

theorem SymbolClass.not_has_of_le (c : SymbolClass) (x : α) (h : 128 ≤ Symbol.code x) :
    c.has x = false := by
  rw [Bool.eq_false_iff]
  intro hc
  have hlt := c.lt_of_has x hc
  omega

namespace Pattern

/-- The texts that pieces take, one piece after the other. What stands around the text plays no
part, so there is none for a boundary. -/
def Fits : Pattern → List α → Prop
  | [], w => w = []
  | .boundary :: _, _ => False
  | .one c :: ps, w => ∃ x v, w = x :: v ∧ c.has x = true ∧ Fits ps v
  | .many c :: ps, w => ∃ s v, w = s ++ v ∧ (∀ x ∈ s, c.has x = true) ∧ Fits ps v

theorem fits_of_matchLength (ps : Pattern) (before : Option α) (xs : List α) (n : Nat)
    (hb : .boundary ∉ ps) (hm : matchLength ps before xs = some n) :
    ∃ w rest, xs = w ++ rest ∧ w.length = n ∧ Fits ps w := by
  fun_induction matchLength ps before xs generalizing n with
  | case1 before xs => exact ⟨[], xs, rfl, Option.some.inj hm, rfl⟩
  | case2 | case3 => simp at hb
  | case4 => cases hm
  | case5 c ps before x xs hx ih =>
    obtain ⟨k, hk, rfl⟩ := Option.map_eq_some_iff.mp hm
    obtain ⟨w, rest, rfl, hl, hf⟩ := ih k (by simpa using hb) hk
    exact ⟨x :: w, rest, rfl, by simp [hl], x, w, rfl, hx, hf⟩
  | case6 => cases hm
  | case7 c ps before ih =>
    obtain ⟨w, rest, he, hl, hf⟩ := ih n (by simpa using hb) hm
    exact ⟨w, rest, he, hl, [], w, rfl, by simp, hf⟩
  | case8 c ps before x xs hx ih1 ih2 =>
    rcases Option.or_eq_some_iff.mp hm with hm | ⟨-, hm⟩
    · obtain ⟨k, hk, rfl⟩ := Option.map_eq_some_iff.mp hm
      obtain ⟨w, rest, rfl, hl, s, v, rfl, hs, hf⟩ := ih1 k hb hk
      refine ⟨x :: (s ++ v), rest, rfl, by simp [hl], x :: s, v, rfl, ?_, hf⟩
      simpa [hx] using hs
    · obtain ⟨w, rest, he, hl, hf⟩ := ih2 n (by simpa using hb) hm
      exact ⟨w, rest, he, hl, [], w, rfl, by simp, hf⟩
  | case9 c ps before x xs hx ih =>
    obtain ⟨w, rest, he, hl, hf⟩ := ih n (by simpa using hb) hm
    exact ⟨w, rest, he, hl, [], w, rfl, by simp, hf⟩

/-- A `many` may always take nothing. -/
theorem matchLength_many_isSome (c : SymbolClass) (ps : Pattern) (before : Option α)
    (xs : List α) (h : (matchLength ps before xs).isSome) :
    (matchLength (.many c :: ps) before xs).isSome := by
  cases xs with
  | nil => rwa [matchLength]
  | cons x xs =>
    rw [matchLength]
    split
    · simp [Option.isSome_or, h]
    · exact h

theorem matchLength_isSome (ps : Pattern) (w rest : List α) (before : Option α)
    (hf : Fits ps w) : (matchLength ps before (w ++ rest)).isSome := by
  induction ps generalizing w before with
  | nil => simp [matchLength]
  | cons p ps ih =>
    cases p with
    | boundary => exact hf.elim
    | one c =>
      obtain ⟨x, v, rfl, hx, hf⟩ := hf
      simpa [matchLength, hx] using ih v (some x) hf
    | many c =>
      obtain ⟨s, v, rfl, hs, hf⟩ := hf
      -- on the run that the piece takes
      induction s generalizing before with
      | nil => exact matchLength_many_isSome c ps before _ (ih v before hf)
      | cons x s ihs =>
        have hx : c.has x = true := hs x (by simp)
        have hr := ihs (some x) fun y hy => hs y (by simp [hy])
        simp only [List.cons_append, matchLength, hx, if_true]
        rw [Option.isSome_or, Option.isSome_map, hr, Bool.true_or]

theorem matchesFrom_of_match (p : Pattern) (before : Option α) (x : α) (xs : List α) (n : Nat)
    (hm : matchLength p before (x :: xs) = some (n + 1)) : p.matchesFrom before (x :: xs) =
      (x :: xs.take n) :: p.matchesFrom (x :: xs.take n).getLast? (xs.drop n) := by
  rw [matchesFrom, hm]

theorem matchesFrom_of_no_match (p : Pattern) (before : Option α) (x : α) (xs : List α)
    (hm : ∀ n, matchLength p before (x :: xs) ≠ some (n + 1)) :
    p.matchesFrom before (x :: xs) = p.matchesFrom (some x) xs := by
  rw [matchesFrom]
  split
  · next n hn => exact absurd hn (hm n)
  · rfl

/-- A pattern takes ASCII symbols only. -/
theorem ascii_of_matchLength (ps : Pattern) (before : Option α) (xs : List α) (n : Nat)
    (hm : matchLength ps before xs = some n) : ∀ x ∈ xs.take n, Symbol.code x < 128 := by
  fun_induction matchLength ps before xs generalizing n with
  | case1 before xs =>
    obtain rfl := Option.some.inj hm
    simp
  | case2 ps before xs hcond ih => exact ih n hm
  | case3 | case4 | case6 => cases hm
  | case5 c ps before x xs hx ih =>
    obtain ⟨k, hk, rfl⟩ := Option.map_eq_some_iff.mp hm
    rw [List.take_succ_cons, List.forall_mem_cons]
    exact ⟨c.lt_of_has x hx, ih k hk⟩
  | case7 c ps before ih => exact ih n hm
  | case8 c ps before x xs hx ih1 ih2 =>
    rcases Option.or_eq_some_iff.mp hm with hm | ⟨-, hm⟩
    · obtain ⟨k, hk, rfl⟩ := Option.map_eq_some_iff.mp hm
      rw [List.take_succ_cons, List.forall_mem_cons]
      exact ⟨c.lt_of_has x hx, ih1 k hk⟩
    · exact ih2 n hm
  | case9 c ps before x xs hx ih => exact ih n hm

theorem ascii_of_mem_matchesFrom (p : Pattern) (before : Option α) (xs : List α)
    (m : List α) (hm : m ∈ p.matchesFrom before xs) : ∀ x ∈ m, Symbol.code x < 128 := by
  fun_induction matchesFrom p before xs with
  | case1 => cases hm
  | case2 before x xs n hn ih =>
    rcases List.mem_cons.mp hm with rfl | hm
    · have ha := ascii_of_matchLength p before (x :: xs) (n + 1) hn
      rwa [List.take_succ_cons] at ha
    · exact ih hm
  | case3 before x xs hn ih => exact ih hm

end Pattern
end CallGraph
