import CallGraph.Proofs.Weight.Nearest
import CallGraph.Weight.Shortest

namespace CallGraph.Decimal

open Weight

def value (d : Decimal) : ℚ := d.coefficient * 10 ^ d.exponent

theorem value_nonneg (d : Decimal) : 0 ≤ d.value := by
  rw [value]
  positivity

theorem value_ratio (d : Decimal) : d.ratio.value = d.value :=
  Ratio.value_scaled d.coefficient 10 (by norm_num) d.exponent

theorem value_trim (d : Decimal) : d.trim.value = d.value := by
  fun_induction trim d with
  | case1 d h ih =>
    have hten : (d.coefficient : ℚ) = (d.coefficient / 10 : ℕ) * 10 := by
      exact_mod_cast (Nat.div_mul_cancel (Nat.dvd_of_mod_eq_zero h.2)).symm
    rw [ih, value, value, hten, zpow_add_one₀ (by norm_num)]
    ring
  | case2 d h => rfl

theorem two_pow_le_ten_pow (n : Nat) : (2 : ℚ) ^ (3 * n) ≤ 10 ^ n := by
  rw [pow_mul]
  exact pow_le_pow_left₀ (by norm_num) (by norm_num) n

theorem bodyValue_infiniteBody : bodyValue infiniteBody = 2 ^ (1024 : ℤ) := by
  have hsplit : infiniteBody = 2046 * leadingBit + leadingBit := by decide
  rw [hsplit, bodyValue_of 2046 leadingBit (by omega) (.inr le_rfl), leadingBit_mul_zpow]
  rfl

/-- An exponent above 400 is beyond all finite numbers. -/
theorem infinite_of_exponent (d : Decimal) (hc : d.coefficient ≠ 0) (he : 400 < d.exponent) :
    bodyValue infiniteBody ≤ d.value := by
  have hone : (1 : ℚ) ≤ d.coefficient := by exact_mod_cast Nat.one_le_iff_ne_zero.mpr hc
  calc bodyValue infiniteBody = 2 ^ (1024 : ℤ) := bodyValue_infiniteBody
    _ ≤ 2 ^ ((3 * 401 : ℕ) : ℤ) := zpow_le_zpow_right₀ (by norm_num) (by norm_num)
    _ ≤ 10 ^ ((401 : ℕ) : ℤ) := by
      rw [zpow_natCast, zpow_natCast]
      exact two_pow_le_ten_pow 401
    _ ≤ 10 ^ d.exponent := zpow_le_zpow_right₀ (by norm_num) he
    _ ≤ d.value := le_mul_of_one_le_left (by positivity) hone

theorem value_le_of_exponent (d : Decimal) (he : d.exponent + d.coefficient.log2 < -400) :
    d.value ≤ 2 * 10 ^ (-(401 : ℕ) : ℤ) := by
  have hlog : d.coefficient ≤ 2 * 2 ^ d.coefficient.log2 := by
    have h := @Nat.lt_log2_self d.coefficient
    rw [pow_succ, mul_comm] at h
    exact h.le
  have hpow : 2 ^ d.coefficient.log2 ≤ 10 ^ d.coefficient.log2 :=
    Nat.pow_le_pow_left (by norm_num) _
  have hc : (d.coefficient : ℚ) ≤ 2 * 10 ^ d.coefficient.log2 := by
    exact_mod_cast (by omega : d.coefficient ≤ 2 * 10 ^ d.coefficient.log2)
  calc d.value ≤ 2 * 10 ^ d.coefficient.log2 * 10 ^ d.exponent :=
      mul_le_mul_of_nonneg_right hc (by positivity)
    _ = 2 * 10 ^ (d.exponent + d.coefficient.log2) := by
      rw [zpow_add₀ (by norm_num), zpow_natCast]
      ring
    _ ≤ 2 * 10 ^ (-(401 : ℕ) : ℤ) := by
      have hle : (10 : ℚ) ^ (d.exponent + d.coefficient.log2) ≤ 10 ^ (-(401 : ℕ) : ℤ) :=
        zpow_le_zpow_right₀ (by norm_num) (by omega)
      linarith

theorem bodyValue_one : bodyValue 1 = 2 ^ (-1074 : ℤ) := by
  have h := bodyValue_of 0 1 (by decide) (.inl rfl)
  rwa [Nat.zero_mul, Nat.zero_add, Nat.cast_one, one_mul, Nat.cast_zero, zero_sub] at h

/-- A first digit so far behind the point is nearer to zero than to the smallest number. -/
theorem zero_of_exponent (d : Decimal) (he : d.exponent + d.coefficient.log2 < -400) :
    NearestBody 0 d.value := by
  have hsmall : 2 * d.value ≤ 2 ^ (-1074 : ℤ) := by
    calc 2 * d.value ≤ 2 ^ (2 : ℤ) * 10 ^ (-(401 : ℕ) : ℤ) := by
          have h := value_le_of_exponent d he
          have hfour : (2 : ℚ) ^ (2 : ℤ) = 4 := by norm_num
          rw [hfour]
          linarith
      _ ≤ 2 ^ (2 : ℤ) * 2 ^ (-(3 * 401 : ℕ) : ℤ) := by
          rw [zpow_neg, zpow_neg, zpow_natCast, zpow_natCast]
          have h := inv_anti₀ (by positivity) (two_pow_le_ten_pow 401)
          exact mul_le_mul_of_nonneg_left h (by positivity)
      _ = 2 ^ ((2 : ℤ) + -(3 * 401 : ℕ)) := (zpow_add₀ (by norm_num) _ _).symm
      _ ≤ 2 ^ (-1074 : ℤ) := zpow_le_zpow_right₀ (by norm_num) (by norm_num)
  apply NearestBody.of_neighbours
  · intro a ha
    omega
  · rw [bodyValue_zero, zero_add, Nat.zero_add, bodyValue_one]
    exact ⟨hsmall, fun _ => rfl⟩

theorem nearestTrimmed?_eq_some_iff (d : Decimal) (b : Nat) :
    d.nearestTrimmed? = some b ↔ b < infiniteBody ∧ NearestBody b d.value := by
  have hzero : NearestBody 0 d.value →
      (some 0 = some b ↔ b < infiniteBody ∧ NearestBody b d.value) := by
    intro h
    rw [h.iff_eq, Option.some.injEq, and_iff_right_of_imp]
    intro hb
    rw [← hb]
    decide
  rw [nearestTrimmed?]
  split_ifs with hc hbig hsmall
  · apply hzero
    have hvalue : d.value = bodyValue 0 := by
      rw [value, hc, bodyValue_zero, Nat.cast_zero, zero_mul]
    rw [hvalue]
    exact .of_bodyValue 0
  · constructor
    · intro h
      exact absurd h (by simp)
    · intro ⟨hlt, hnearest⟩
      have hge := hnearest.le_of_bodyValue_le (infinite_of_exponent d hc hbig)
      omega
  · exact hzero (zero_of_exponent d hsmall)
  · have hden : 0 < d.ratio.den := Ratio.den_scaled_pos _ 10 (by norm_num) _
    rw [Ratio.nearestBody?_eq_some_iff _ hden, value_ratio]

theorem nearestBody?_eq_some_iff (d : Decimal) (b : Nat) :
    d.nearestBody? = some b ↔ b < infiniteBody ∧ NearestBody b d.value := by
  rw [nearestBody?, nearestTrimmed?_eq_some_iff, value_trim]

/-- Only the value of a decimal decides how it is read. -/
theorem nearest?_congr (negative : Bool) {d d' : Decimal} (h : d.value = d'.value) :
    d.nearest? negative = d'.nearest? negative := by
  have hbody : d.nearestBody? = d'.nearestBody? := by
    apply Option.ext
    intro b
    rw [nearestBody?_eq_some_iff, nearestBody?_eq_some_iff, h]
  rw [nearest?, nearest?, hbody]

theorem isNearest_of_nearest? (negative : Bool) (d : Decimal) (w : Weight)
    (h : d.nearest? negative = some w) :
    w.isNegative = negative ∧ w.IsNearest (signed negative d.value) := by
  obtain ⟨b, hb, rfl⟩ := Option.map_eq_some_iff.mp h
  obtain ⟨hlt, hnearest⟩ := (nearestBody?_eq_some_iff d b).mp hb
  exact ⟨isNegative_ofBody negative b (Nat.lt_trans hlt infiniteBody_lt_signBit),
    isNearest_ofBody negative b d.value hlt (value_nonneg d) hnearest⟩

theorem value_exact (m : Nat) (e : Int) : (exact m e).value = m * 2 ^ e := by
  rw [exact]
  split
  case isTrue h =>
    obtain ⟨n, rfl⟩ := Int.eq_ofNat_of_zero_le h
    change ((m * 2 ^ n : ℕ) : ℚ) * 10 ^ (0 : ℤ) = m * 2 ^ (n : ℤ)
    rw [zpow_zero, mul_one, zpow_natCast]
    push_cast
    rfl
  case isFalse h =>
    obtain ⟨n, hn⟩ := Int.eq_ofNat_of_zero_le (show 0 ≤ -e by omega)
    have he : e = -(n : ℤ) := by omega
    rw [he, value, neg_neg]
    change ((m * 5 ^ n : ℕ) : ℚ) * 10 ^ (-(n : ℤ)) = m * 2 ^ (-(n : ℤ))
    have hten : (10 : ℚ) ^ n = 5 ^ n * 2 ^ n := by
      rw [← mul_pow]
      norm_num
    rw [zpow_neg, zpow_neg, zpow_natCast, zpow_natCast, hten]
    push_cast
    field_simp

theorem nearestBody?_of_onGrid? {b : Nat} {r : Ratio} {e : Int} {d : Decimal}
    (h : onGrid? b r e = some d) : d.nearestBody? = some b := by
  have hreads : readsAs b d = true := by
    rw [onGrid?] at h
    split at h
    case h_1 hlow hhigh =>
      obtain rfl := Option.some.inj h
      split
      · exact hlow
      · exact hhigh
    case h_2 hlow hhigh =>
      obtain rfl := Option.some.inj h
      exact hlow
    case h_3 hlow hhigh =>
      obtain rfl := Option.some.inj h
      exact hhigh
    case h_4 => exact absurd h (by simp)
  exact eq_of_beq hreads

theorem nearestBody?_of_value {d : Decimal} {b : Nat} (hb : b < infiniteBody)
    (h : d.value = bodyValue b) : d.nearestBody? = some b := by
  rw [nearestBody?_eq_some_iff, h]
  exact ⟨hb, .of_bodyValue b⟩

/-- What is written for a number is read as that number. -/
theorem nearestBody?_shortest (b : Nat) (hb : b < infiniteBody) :
    (shortest b (significand b) ((place b : ℤ) - 1074)).nearestBody? = some b := by
  rw [shortest]
  split
  case isTrue hzero =>
    apply nearestBody?_of_value hb
    rw [bodyValue, hzero, value, Nat.cast_zero, zero_mul, zero_mul]
  case isFalse =>
    dsimp only
    generalize hfound : List.findSome? _ (List.range 17) = found
    cases found with
    | none =>
      apply nearestBody?_of_value hb
      rw [Option.getD_none, value_trim, value_exact, bodyValue]
    | some d =>
      obtain ⟨i, _, hi⟩ := List.exists_of_findSome?_eq_some hfound
      exact nearestBody?_of_onGrid? hi

/-- Zero is written without a power of ten. -/
theorem exponent_shortest (b : Nat) (hb : b < infiniteBody)
    (h : (shortest b (significand b) ((place b : ℤ) - 1074)).coefficient = 0) :
    (shortest b (significand b) ((place b : ℤ) - 1074)).exponent = 0 := by
  have hvalue : (shortest b (significand b) ((place b : ℤ) - 1074)).value = bodyValue 0 := by
    rw [value, h, bodyValue_zero, Nat.cast_zero, zero_mul]
  have hread := nearestBody?_of_value (by decide) hvalue
  rw [nearestBody?_shortest b hb] at hread
  obtain rfl := Option.some.inj hread
  rfl

end CallGraph.Decimal
