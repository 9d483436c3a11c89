import CallGraph.Proofs.Weight.Value
import CallGraph.Weight.Decimal
import Mathlib.Algebra.Order.Group.Abs
import Mathlib.Tactic.FieldSimp

namespace CallGraph

open Weight

/-- Of two different numbers, the greater is at least as near to all that lies above the middle. -/
theorem abs_sub_le_iff_of_lt {x y : ℚ} (h : x < y) (v : ℚ) :
    |y - v| ≤ |x - v| ↔ x + y ≤ 2 * v := by
  rw [← sq_le_sq]
  constructor
  · intro hle
    nlinarith
  · intro hle
    nlinarith

theorem abs_sub_ge_iff_of_lt {x y : ℚ} (h : x < y) (v : ℚ) :
    |x - v| ≤ |y - v| ↔ 2 * v ≤ x + y := by
  rw [← sq_le_sq]
  constructor
  · intro hle
    nlinarith
  · intro hle
    nlinarith

/-- The body of the number nearest to `v`, of two equally near ones that with an even last digit. -/
def NearestBody (b : Nat) (v : ℚ) : Prop :=
  ∀ b', |bodyValue b - v| ≤ |bodyValue b' - v| ∧
    (|bodyValue b' - v| = |bodyValue b - v| → b' = b ∨ b % 2 = 0)

namespace NearestBody

/-- It is enough to look at the two neighbours. -/
theorem of_neighbours (b : Nat) (v : ℚ)
    (hlow : ∀ a, a + 1 = b → bodyValue a + bodyValue b ≤ 2 * v ∧
      (bodyValue a + bodyValue b = 2 * v → b % 2 = 0))
    (hhigh : 2 * v ≤ bodyValue b + bodyValue (b + 1) ∧
      (2 * v = bodyValue b + bodyValue (b + 1) → b % 2 = 0)) : NearestBody b v := by
  intro b'
  rcases Nat.lt_trichotomy b' b with hlt | rfl | hgt
  · obtain ⟨a, rfl⟩ : ∃ a, a + 1 = b := ⟨b - 1, by omega⟩
    obtain ⟨hmid, heven⟩ := hlow a rfl
    have hval := bodyValue_strictMono hlt
    have hle := bodyValue_strictMono.monotone (Nat.lt_succ_iff.mp hlt)
    refine ⟨(abs_sub_le_iff_of_lt hval v).mpr (by linarith), ?_⟩
    intro htie
    have hback := (abs_sub_ge_iff_of_lt hval v).mp htie.le
    exact .inr (heven (by linarith))
  · exact ⟨le_rfl, fun _ => .inl rfl⟩
  · obtain ⟨hmid, heven⟩ := hhigh
    have hval := bodyValue_strictMono hgt
    have hle := bodyValue_strictMono.monotone (Nat.succ_le_of_lt hgt)
    refine ⟨(abs_sub_ge_iff_of_lt hval v).mpr (by linarith), ?_⟩
    intro htie
    have hback := (abs_sub_le_iff_of_lt hval v).mp htie.le
    exact .inr (heven (by linarith))

theorem not_lt {b b' : Nat} {v : ℚ} (h : NearestBody b v) (h' : NearestBody b' v) : ¬ b < b' := by
  intro hlt
  have hval := bodyValue_strictMono hlt
  have hlow := (abs_sub_ge_iff_of_lt hval v).mp (h b').1
  have hhigh := (abs_sub_le_iff_of_lt hval v).mp (h' b).1
  have hdist : |bodyValue b' - v| = |bodyValue b - v| := le_antisymm (h' b).1 (h b').1
  -- both are even, so that a nearer number lies between them
  have heven : b % 2 = 0 := ((h b').2 hdist).resolve_left (by omega)
  have heven' : b' % 2 = 0 := ((h' b).2 hdist.symm).resolve_left (by omega)
  have hnext := (abs_sub_ge_iff_of_lt (bodyValue_lt_succ b) v).mp (h (b + 1)).1
  have hbetween := bodyValue_strictMono (show b + 1 < b' by omega)
  linarith

theorem unique {b b' : Nat} {v : ℚ} (h : NearestBody b v) (h' : NearestBody b' v) : b = b' :=
  Nat.le_antisymm (Nat.not_lt.mp (h'.not_lt h)) (Nat.not_lt.mp (h.not_lt h'))

theorem iff_eq {b : Nat} {v : ℚ} (h : NearestBody b v) (b' : Nat) : NearestBody b' v ↔ b = b' := by
  constructor
  · exact h.unique
  · intro heq
    rwa [← heq]

theorem of_bodyValue (b : Nat) : NearestBody b (bodyValue b) := by
  intro b'
  rw [sub_self, abs_zero]
  refine ⟨abs_nonneg _, ?_⟩
  intro htie
  exact .inl (bodyValue_strictMono.injective (sub_eq_zero.mp (abs_eq_zero.mp htie)))

theorem le_of_bodyValue_le {b c : Nat} {v : ℚ} (h : NearestBody b v) (hc : bodyValue c ≤ v) :
    c ≤ b := by
  by_contra hlt
  have hval := bodyValue_strictMono (Nat.not_le.mp hlt)
  have hmid := (abs_sub_ge_iff_of_lt hval v).mp (h c).1
  linarith

end NearestBody

/-- The integer nearest to `x`, a half going to even. -/
def IsRound (n : Nat) (x : ℚ) : Prop := 2 * |x - n| ≤ 1 ∧ (2 * |x - n| = 1 → n % 2 = 0)

theorem isRound_iff (n : Nat) (x : ℚ) : IsRound n x ↔
    2 * n - 1 ≤ 2 * x ∧ 2 * x ≤ 2 * n + 1 ∧
      (2 * x = 2 * n - 1 ∨ 2 * x = 2 * n + 1 → n % 2 = 0) := by
  rw [IsRound]
  rcases le_total (n : ℚ) x with hle | hle
  · rw [abs_of_nonneg (by linarith)]
    constructor
    · intro ⟨hnear, heven⟩
      refine ⟨by linarith, by linarith, fun htie => heven ?_⟩
      rcases htie with htie | htie <;> linarith
    · intro ⟨_, hhigh, heven⟩
      exact ⟨by linarith, fun htie => heven (.inr (by linarith))⟩
  · rw [abs_of_nonpos (by linarith)]
    constructor
    · intro ⟨hnear, heven⟩
      refine ⟨by linarith, by linarith, fun htie => heven ?_⟩
      rcases htie with htie | htie <;> linarith
    · intro ⟨hlow, _, heven⟩
      exact ⟨by linarith, fun htie => heven (.inl (by linarith))⟩

namespace IsRound

theorem le_nat {n : Nat} {x : ℚ} (h : IsRound n x) (m : Nat) (hx : x ≤ m) : n ≤ m := by
  have hlow := ((isRound_iff n x).mp h).1
  have hcast : ((2 * n : ℕ) : ℚ) ≤ (2 * m + 1 : ℕ) := by
    push_cast
    linarith
  have hnat : 2 * n ≤ 2 * m + 1 := Nat.cast_le.mp hcast
  omega

theorem nat_le {n : Nat} {x : ℚ} (h : IsRound n x) (m : Nat) (hx : m ≤ x) : m ≤ n := by
  have hhigh := ((isRound_iff n x).mp h).2.1
  have hcast : ((2 * m : ℕ) : ℚ) ≤ (2 * n + 1 : ℕ) := by
    push_cast
    linarith
  have hnat : 2 * m ≤ 2 * n + 1 := Nat.cast_le.mp hcast
  omega

end IsRound

theorem isRound_roundDiv (num den : Nat) (h : 0 < den) :
    IsRound (roundDiv num den) (num / den) := by
  have hden : (0 : ℚ) < den := by exact_mod_cast h
  have hmod := Nat.mod_lt num h
  have hsplit : (den : ℚ) * (num / den : ℕ) + (num % den : ℕ) = num := by
    exact_mod_cast Nat.div_add_mod num den
  have hx : (num : ℚ) / den = (num / den : ℕ) + (num % den : ℕ) / den := by
    rw [← hsplit]
    field_simp
  rw [isRound_iff, hx, roundDiv]
  generalize num / den = low
  generalize num % den = rest at hmod
  have hnonneg : 0 ≤ (rest : ℚ) / den := by positivity
  have hone : (rest : ℚ) / den < 1 := by
    rw [div_lt_one hden]
    exact_mod_cast hmod
  have htwice : 2 * ((rest : ℚ) / den) = (2 * rest : ℕ) / den := by
    push_cast
    ring
  split_ifs with hlow hhigh
  · have hrest : 2 * ((rest : ℚ) / den) < 1 := by
      rw [htwice, div_lt_one hden]
      exact_mod_cast hlow
    refine ⟨by linarith, by linarith, ?_⟩
    intro htie
    rcases htie with htie | htie <;> linarith
  · have hrest : 1 < 2 * ((rest : ℚ) / den) := by
      rw [htwice, one_lt_div hden]
      exact_mod_cast hhigh
    push_cast
    refine ⟨by linarith, by linarith, ?_⟩
    intro htie
    rcases htie with htie | htie <;> linarith
  · have hhalf : 2 * rest = den := by omega
    have hrest : 2 * ((rest : ℚ) / den) = 1 := by
      rw [htwice, hhalf, div_self hden.ne']
    rcases Nat.mod_two_eq_zero_or_one low with hpar | hpar
    · rw [hpar, Nat.add_zero]
      exact ⟨by linarith, by linarith, fun _ => hpar⟩
    · rw [hpar]
      push_cast
      exact ⟨by linarith, by linarith, fun _ => by omega⟩

theorem zpow_eq_div (base : ℚ) (h : base ≠ 0) (e : Int) :
    base ^ e = base ^ e.toNat / base ^ (-e).toNat := by
  have hsplit : e = (e.toNat : ℤ) - ((-e).toNat : ℤ) := by omega
  calc base ^ e = base ^ ((e.toNat : ℤ) - ((-e).toNat : ℤ)) := by rw [← hsplit]
    _ = base ^ e.toNat / base ^ (-e).toNat := by rw [zpow_sub₀ h, zpow_natCast, zpow_natCast]

theorem leadingBit_mul_zpow (q : Int) : (leadingBit : ℚ) * 2 ^ q = 2 ^ (q + 52) := by
  rw [zpow_add₀ (by norm_num), mul_comm, leadingBit_eq]
  norm_num

theorem two_leadingBit_mul_zpow (q : Int) : ((2 * leadingBit : ℕ) : ℚ) * 2 ^ q = 2 ^ (q + 53) := by
  rw [zpow_add₀ (by norm_num), mul_comm, leadingBit_eq]
  norm_num

namespace Ratio

def value (r : Ratio) : ℚ := r.num / r.den

theorem value_inUnits (r : Ratio) (base : Nat) (hbase : 0 < base) (e : Int) :
    (r.inUnits base e).value = r.value / base ^ e := by
  have hne : (base : ℚ) ≠ 0 := by exact_mod_cast hbase.ne'
  have hunits : r.inUnits base e = ⟨r.num * base ^ (-e).toNat, r.den * base ^ e.toNat⟩ := rfl
  rw [hunits, value, value, zpow_eq_div _ hne]
  push_cast
  rw [div_div_div_eq]

theorem value_scaled (n base : Nat) (hbase : 0 < base) (e : Int) :
    (scaled n base e).value = n * base ^ e := by
  have hne : (base : ℚ) ≠ 0 := by exact_mod_cast hbase.ne'
  have hscaled : scaled n base e = ⟨n * base ^ e.toNat, base ^ (-e).toNat⟩ := rfl
  rw [hscaled, value, zpow_eq_div _ hne]
  push_cast
  rw [mul_div_assoc]

theorem den_inUnits_pos (r : Ratio) (h : 0 < r.den) (base : Nat) (hbase : 0 < base) (e : Int) :
    0 < (r.inUnits base e).den := Nat.mul_pos h (Nat.pow_pos hbase)

theorem den_scaled_pos (n base : Nat) (hbase : 0 < base) (e : Int) : 0 < (scaled n base e).den :=
  Nat.pow_pos hbase

theorem value_lt_one_iff (r : Ratio) (h : 0 < r.den) : r.value < 1 ↔ r.num < r.den := by
  have hden : (0 : ℚ) < r.den := by exact_mod_cast h
  rw [value, div_lt_one hden, Nat.cast_lt]

theorem value_between (r : Ratio) (hnum : 0 < r.num) (hden : 0 < r.den) :
    (2 : ℚ) ^ ((r.num.log2 - r.den.log2 : ℤ) - 1) ≤ r.value ∧
      r.value < 2 ^ ((r.num.log2 - r.den.log2 : ℤ) + 1) := by
  have hn : (2 : ℚ) ^ r.num.log2 ≤ r.num := by exact_mod_cast Nat.log2_self_le hnum.ne'
  have hn' : (r.num : ℚ) < 2 ^ (r.num.log2 + 1) := by exact_mod_cast Nat.lt_log2_self
  have hd : (2 : ℚ) ^ r.den.log2 ≤ r.den := by exact_mod_cast Nat.log2_self_le hden.ne'
  have hd' : (r.den : ℚ) < 2 ^ (r.den.log2 + 1) := by exact_mod_cast Nat.lt_log2_self
  have hpos : (0 : ℚ) < r.den := by exact_mod_cast hden
  constructor
  · have hexp : (r.num.log2 - r.den.log2 : ℤ) - 1 = (r.num.log2 : ℤ) - (r.den.log2 + 1 : ℕ) := by
      push_cast
      ring
    rw [hexp, zpow_sub₀ (by norm_num), zpow_natCast, zpow_natCast, value]
    gcongr
  · have hexp : (r.num.log2 - r.den.log2 : ℤ) + 1 = ((r.num.log2 + 1 : ℕ) : ℤ) - r.den.log2 := by
      push_cast
      ring
    rw [hexp, zpow_sub₀ (by norm_num), zpow_natCast, zpow_natCast, value]
    gcongr

/-- Fifty-three digits reach from the first to the last place, unless that is the lowest one. -/
theorem lastPlace_bounds (r : Ratio) (hnum : 0 < r.num) (hden : 0 < r.den) :
    -1074 ≤ r.lastPlace ∧ r.value < 2 ^ (r.lastPlace + 53) ∧
      (r.lastPlace = -1074 ∨ 2 ^ (r.lastPlace + 52) ≤ r.value) := by
  obtain ⟨hlow, hhigh⟩ := value_between r hnum hden
  rw [lastPlace]
  generalize (r.num.log2 - r.den.log2 : ℤ) = e at *
  have hunit : (r.inUnits 2 e).num < (r.inUnits 2 e).den ↔ r.value < 2 ^ e := by
    have hden' := den_inUnits_pos r hden 2 (by norm_num) e
    rw [← value_lt_one_iff _ hden', value_inUnits r 2 (by norm_num), div_lt_one (by positivity)]
    norm_cast
  obtain ⟨p, hp, hlow', hhigh'⟩ : ∃ p,
      (if (r.inUnits 2 e).num < (r.inUnits 2 e).den then e - 53 else e - 52) = p ∧
        (2 : ℚ) ^ (p + 52) ≤ r.value ∧ r.value < 2 ^ (p + 53) := by
    by_cases hlt : r.value < 2 ^ e
    · refine ⟨e - 53, if_pos (hunit.mpr hlt), ?_, ?_⟩
      · rwa [show e - 53 + 52 = e - 1 by ring]
      · rwa [sub_add_cancel]
    · refine ⟨e - 52, if_neg (mt hunit.mp hlt), ?_, ?_⟩
      · rw [sub_add_cancel]
        exact not_lt.mp hlt
      · rwa [show e - 52 + 53 = e + 1 by ring]
  rw [hp]
  rcases le_total (-1074) p with hle | hle
  · rw [max_eq_right hle]
    exact ⟨hle, hhigh', .inr hlow'⟩
  · rw [max_eq_left hle]
    refine ⟨le_rfl, lt_of_lt_of_le hhigh' ?_, .inl rfl⟩
    exact zpow_le_zpow_right₀ (by norm_num) (by omega)

end Ratio

theorem mul_leadingBit_add_mod (k s : Nat) : (k * leadingBit + s) % 2 = s % 2 := by
  have heven : leadingBit = 2 * 2 ^ 51 := rfl
  rw [heven, Nat.mul_left_comm, Nat.mul_add_mod]

/-- Rounding to a number of units of one place gives the nearest of all numbers. The place is the
lowest one, or `x` units have all digits there. -/
theorem NearestBody.of_isRound (k s : Nat) (x : ℚ) (hx : x ≤ (2 * leadingBit : ℕ))
    (hk : k = 0 ∨ leadingBit ≤ x) (hround : IsRound s x) :
    NearestBody (k * leadingBit + s) (x * 2 ^ ((k : ℤ) - 1074)) := by
  obtain ⟨hlow, hhigh, htie⟩ := (isRound_iff s x).mp hround
  have hs : s ≤ 2 * leadingBit := hround.le_nat _ hx
  have hks : k = 0 ∨ leadingBit ≤ s := hk.imp_right (hround.nat_le _)
  have hof := bodyValue_of k
  have hpos : (0 : ℚ) < 2 ^ ((k : ℤ) - 1074) := by positivity
  generalize (2 : ℚ) ^ ((k : ℤ) - 1074) = u at *
  have hvalue := hof s hs hks
  have hdouble : 2 * (x * u) = 2 * x * u := by ring
  apply NearestBody.of_neighbours
  · intro a ha
    rw [mul_leadingBit_add_mod]
    by_cases hedge : k = 0 ∨ leadingBit < s
    · obtain ⟨t, rfl⟩ : ∃ t, s = t + 1 := by
        apply Nat.exists_eq_add_one_of_ne_zero
        intro hzero
        rcases hedge with rfl | hlt
        · omega
        · omega
      obtain rfl : k * leadingBit + t = a := by omega
      have hsum : (t : ℚ) * u + (t + 1 : ℕ) * u = (2 * (t + 1 : ℕ) - 1) * u := by
        push_cast
        ring
      rw [hvalue, hof t (by omega) (by omega), hsum, hdouble]
      refine ⟨mul_le_mul_of_nonneg_right hlow hpos.le, ?_⟩
      intro heq
      exact htie (.inl (mul_right_cancel₀ hpos.ne' heq).symm)
    · -- the neighbour below has its last digit one place lower
      have hxs : (s : ℚ) ≤ x := by
        have hsl : s = leadingBit := by omega
        rw [hsl]
        exact hk.resolve_left (by omega)
      have hle := mul_le_mul_of_nonneg_right hxs hpos.le
      have hnext := bodyValue_lt_succ a
      rw [ha] at hnext
      refine ⟨by linarith, ?_⟩
      intro heq
      linarith
  · rw [mul_leadingBit_add_mod]
    by_cases hedge : s < 2 * leadingBit
    · have hsum : (s : ℚ) * u + (s + 1 : ℕ) * u = (2 * s + 1) * u := by
        push_cast
        ring
      rw [hvalue, Nat.add_assoc, hof (s + 1) (by omega) (by omega), hsum, hdouble]
      refine ⟨mul_le_mul_of_nonneg_right hhigh hpos.le, ?_⟩
      intro heq
      exact htie (.inr (mul_right_cancel₀ hpos.ne' heq))
    · have hxs : x ≤ s := by
        have hsl : s = 2 * leadingBit := by omega
        rwa [hsl]
      have hle := mul_le_mul_of_nonneg_right hxs hpos.le
      have hnext := bodyValue_lt_succ (k * leadingBit + s)
      refine ⟨by linarith, ?_⟩
      intro heq
      linarith

namespace Ratio

theorem nearestBody_lastPlace (r : Ratio) (hnum : 0 < r.num) (hden : 0 < r.den) :
    NearestBody ((r.lastPlace + 1074).toNat * leadingBit +
      roundDiv (r.inUnits 2 r.lastPlace).num (r.inUnits 2 r.lastPlace).den) r.value := by
  obtain ⟨hplace, hhigh, hlow⟩ := lastPlace_bounds r hnum hden
  have hround := isRound_roundDiv (r.inUnits 2 r.lastPlace).num _
    (den_inUnits_pos r hden 2 (by norm_num) r.lastPlace)
  have hunits : ((r.inUnits 2 r.lastPlace).num : ℚ) / (r.inUnits 2 r.lastPlace).den =
      r.value / 2 ^ r.lastPlace := value_inUnits r 2 (by norm_num) r.lastPlace
  rw [hunits] at hround
  generalize r.lastPlace = q at *
  have hpos : (0 : ℚ) < 2 ^ q := by positivity
  have hexp : (((q + 1074).toNat : ℕ) : ℤ) - 1074 = q := by omega
  have hx : r.value / 2 ^ q ≤ (2 * leadingBit : ℕ) := by
    rw [div_le_iff₀ hpos, two_leadingBit_mul_zpow]
    exact hhigh.le
  have hk : (q + 1074).toNat = 0 ∨ leadingBit ≤ r.value / 2 ^ q := by
    rw [le_div_iff₀ hpos, leadingBit_mul_zpow]
    exact hlow.imp_left (by omega)
  have hnearest := NearestBody.of_isRound (q + 1074).toNat _ _ hx hk hround
  rwa [hexp, div_mul_cancel₀ _ hpos.ne'] at hnearest

theorem nearestBody?_eq_some_iff (r : Ratio) (hden : 0 < r.den) (b : Nat) :
    r.nearestBody? = some b ↔ b < infiniteBody ∧ NearestBody b r.value := by
  rw [nearestBody?]
  split
  case isTrue hzero =>
    have hvalue : r.value = bodyValue 0 := by
      rw [value, hzero, bodyValue_zero, Nat.cast_zero, zero_div]
    rw [hvalue, (NearestBody.of_bodyValue 0).iff_eq, Option.some.injEq, and_iff_right_of_imp]
    intro hb
    rw [← hb]
    decide
  case isFalse hnum =>
    have hnearest := nearestBody_lastPlace r (by omega) hden
    rw [hnearest.iff_eq]
    dsimp only
    split
    case isTrue hlt =>
      rw [Option.some.injEq, and_iff_right_of_imp]
      intro hb
      rwa [← hb]
    case isFalse hge =>
      constructor
      · intro h
        exact absurd h (by simp)
      · intro ⟨hlt, hb⟩
        rw [← hb] at hlt
        exact absurd hlt hge

end Ratio

namespace Weight

/-- No finite number is nearer to `v`, and one that is as near has another value only if the last
digit of `w` is even. -/
def IsNearest (w : Weight) (v : ℚ) : Prop :=
  ∃ x, w.value? = some x ∧ ∀ w' x', value? w' = some x' →
    |x - v| ≤ |x' - v| ∧ (|x' - v| = |x - v| → x' = x ∨ w.body % 2 = 0)

theorem infiniteBody_lt_signBit : infiniteBody < signBit := by decide

theorem isFinite_ofBody (negative : Bool) (b : Nat) (hb : b < infiniteBody) :
    (ofBody negative b).IsFinite := by
  rw [IsFinite, body_ofBody negative b (Nat.lt_trans hb infiniteBody_lt_signBit)]
  exact hb

theorem signed_zero (negative : Bool) : signed negative 0 = 0 := by
  cases negative with
  | false => rfl
  | true => exact neg_zero

theorem abs_signed_sub (negative : Bool) (x v : ℚ) :
    |signed negative x - signed negative v| = |x - v| := by
  cases negative with
  | false => rfl
  | true =>
    have hneg : -x - -v = -(x - v) := by ring
    rw [signed, signed, if_pos rfl, if_pos rfl, hneg, abs_neg]

theorem abs_signed_not_sub (negative : Bool) (x v : ℚ) (hx : 0 ≤ x) (hv : 0 ≤ v) :
    |signed (!negative) x - signed negative v| = x + v := by
  have hsum : 0 ≤ x + v := add_nonneg hx hv
  cases negative with
  | false =>
    have hneg : -x - v = -(x + v) := by ring
    change |-x - v| = x + v
    rw [hneg, abs_neg, abs_of_nonneg hsum]
  | true =>
    change |x - -v| = x + v
    rw [sub_neg_eq_add, abs_of_nonneg hsum]

theorem isNearest_ofBody (negative : Bool) (b : Nat) (v : ℚ) (hb : b < infiniteBody) (hv : 0 ≤ v)
    (h : NearestBody b v) : (ofBody negative b).IsNearest (signed negative v) := by
  have hsign := Nat.lt_trans hb infiniteBody_lt_signBit
  have hvalue := value?_of_isFinite _ (isFinite_ofBody negative b hb)
  rw [body_ofBody negative b hsign, isNegative_ofBody negative b hsign] at hvalue
  refine ⟨_, hvalue, ?_⟩
  intro w' x' hx'
  obtain ⟨-, rfl⟩ := (value?_eq_some_iff w' x').mp hx'
  rw [abs_signed_sub, body_ofBody negative b hsign]
  by_cases hsame : w'.isNegative = negative
  · obtain ⟨hnear, htie⟩ := h w'.body
    rw [hsame, abs_signed_sub]
    refine ⟨hnear, ?_⟩
    intro heq
    apply (htie heq).imp_left
    intro hbody
    rw [hbody]
  · obtain ⟨hnear, htie⟩ := h 0
    have hother : w'.isNegative = !negative := by
      cases negative <;> simpa using hsame
    have hnonneg := bodyValue_nonneg w'.body
    rw [bodyValue_zero, zero_sub, abs_neg, abs_of_nonneg hv] at hnear htie
    rw [hother, abs_signed_not_sub negative _ v hnonneg hv]
    refine ⟨by linarith, ?_⟩
    intro heq
    -- as near from the other side: both are zero
    have hzero : bodyValue w'.body = 0 := by linarith
    apply (htie (by linarith)).imp_left
    intro hbody
    rw [hzero, ← hbody, bodyValue_zero, signed_zero, signed_zero]

end Weight
end CallGraph
