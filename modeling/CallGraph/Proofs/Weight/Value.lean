import CallGraph.Weight.Basic
import Mathlib.Algebra.Order.Field.Power
import Mathlib.Data.Rat.Cast.Order
import Mathlib.Tactic.Linarith
import Mathlib.Tactic.NormNum
import Mathlib.Tactic.Positivity
import Mathlib.Tactic.Ring

namespace CallGraph.Weight

theorem leadingBit_eq : leadingBit = 2 ^ 52 := rfl

theorem leadingBit_pos : 0 < leadingBit := by decide

/-- The place of the last digit of the number with this body, counted from the lowest one. -/
def place (b : Nat) : Nat := b / leadingBit - 1

/-- The digits of the number with this body, the leading one included. -/
def significand (b : Nat) : Nat := b - place b * leadingBit

/-- The exact value of the number with this body. Beyond the finite ones the exponents go on. -/
def bodyValue (b : Nat) : ℚ := significand b * 2 ^ ((place b : ℤ) - 1074)

theorem place_split (b : Nat) : b = place b * leadingBit + significand b ∧
    significand b < 2 * leadingBit ∧ (place b = 0 ∨ leadingBit ≤ significand b) := by
  have hdiv := Nat.div_add_mod b leadingBit
  have hmod := Nat.mod_lt b leadingBit_pos
  unfold significand place
  generalize b / leadingBit = k at *
  generalize b % leadingBit = r at *
  cases k with
  | zero =>
    rw [Nat.zero_sub, Nat.zero_mul, Nat.sub_zero, Nat.zero_add]
    exact ⟨rfl, by omega, .inl rfl⟩
  | succ k =>
    rw [Nat.mul_succ, Nat.mul_comm] at hdiv
    rw [Nat.add_sub_cancel]
    generalize k * leadingBit = m at *
    omega

/-- Digits up to the first number with one digit more, at any place that allows for them. -/
theorem bodyValue_of (k s : Nat) (hs : s ≤ 2 * leadingBit) (hk : k = 0 ∨ leadingBit ≤ s) :
    bodyValue (k * leadingBit + s) = s * 2 ^ ((k : ℤ) - 1074) := by
  have hpos := leadingBit_pos
  have hdiv : (k * leadingBit + s) / leadingBit = k + s / leadingBit := by
    rw [Nat.add_comm, Nat.add_mul_div_right _ _ hpos, Nat.add_comm]
  rcases Nat.lt_or_ge s leadingBit with hlow | hlow
  · have hk0 : k = 0 := by omega
    have hplace : place (k * leadingBit + s) = k := by
      rw [place, hdiv, Nat.div_eq_of_lt hlow, hk0]
    rw [bodyValue, significand, hplace, Nat.add_sub_cancel_left]
  rcases Nat.lt_or_ge s (2 * leadingBit) with hhigh | hhigh
  · have hone : s / leadingBit = 1 := Nat.div_eq_of_lt_le (by omega) (by omega)
    have hplace : place (k * leadingBit + s) = k := by
      rw [place, hdiv, hone, Nat.add_sub_cancel]
    rw [bodyValue, significand, hplace, Nat.add_sub_cancel_left]
  · -- one digit more: the leading digit moves to the next place
    have hs2 : s = 2 * leadingBit := by omega
    have hplace : place (k * leadingBit + s) = k + 1 := by
      rw [place, hdiv, hs2, Nat.mul_div_cancel _ hpos]
      omega
    have hsig : significand (k * leadingBit + s) = leadingBit := by
      rw [significand, hplace, hs2, Nat.add_mul]
      omega
    have hexp : ((k + 1 : ℕ) : ℤ) - 1074 = (k : ℤ) - 1074 + 1 := by
      push_cast
      ring
    rw [bodyValue, hsig, hplace, hexp, zpow_add_one₀ (by norm_num), hs2]
    push_cast
    ring

theorem bodyValue_lt_succ (b : Nat) : bodyValue b < bodyValue (b + 1) := by
  obtain ⟨hb, hs, hk⟩ := place_split b
  generalize place b = k at *
  generalize significand b = s at *
  subst hb
  have hpow : (0 : ℚ) < 2 ^ ((k : ℤ) - 1074) := by positivity
  rw [Nat.add_assoc, bodyValue_of k s hs.le hk, bodyValue_of k (s + 1) (by omega) (by omega)]
  push_cast
  linarith

theorem bodyValue_strictMono : StrictMono bodyValue := strictMono_nat_of_lt_succ bodyValue_lt_succ

theorem bodyValue_zero : bodyValue 0 = 0 := by
  have h := bodyValue_of 0 0 (Nat.zero_le _) (.inl rfl)
  simpa using h

theorem bodyValue_nonneg (b : Nat) : 0 ≤ bodyValue b := by
  have h := bodyValue_strictMono.monotone (Nat.zero_le b)
  rwa [bodyValue_zero] at h

theorem magnitudeOfBody_of_lt (b : Nat) (h : b < infiniteBody) :
    magnitudeOfBody b = .finite (significand b) ((place b : ℤ) - 1074) := by
  have hdiv := Nat.div_add_mod b leadingBit
  rw [magnitudeOfBody]
  split
  case isTrue hlow =>
    have hplace : place b = 0 := by rw [place, Nat.div_eq_of_lt hlow]
    rw [significand, hplace, Nat.zero_mul, Nat.sub_zero]
    rfl
  case isFalse hlow =>
    have hquot : 1 ≤ b / leadingBit := (Nat.one_le_div_iff leadingBit_pos).mpr (by omega)
    obtain ⟨k, hk⟩ : ∃ k, b / leadingBit = k + 1 := ⟨b / leadingBit - 1, by omega⟩
    have hplace : place b = k := by rw [place, hk, Nat.add_sub_cancel]
    have hsig : b % leadingBit + leadingBit = significand b := by
      rw [hk, Nat.mul_succ, Nat.mul_comm] at hdiv
      rw [significand, hplace]
      omega
    have hexp : (b : ℤ) / leadingBit - 1075 = (k : ℤ) - 1074 := by
      rw [← Int.natCast_div, hk]
      push_cast
      ring
    rw [hsig, hexp, hplace]

def signed (negative : Bool) (x : ℚ) : ℚ := if negative then -x else x

theorem signed_natAbs (n : Int) : signed (decide (n < 0)) n.natAbs = n := by
  by_cases h : n < 0
  · rw [decide_eq_true h, signed, if_pos rfl, Nat.cast_natAbs, abs_of_neg h, Int.cast_neg, neg_neg]
  · rw [decide_eq_false h, signed, if_neg (by decide), Nat.cast_natAbs, abs_of_nonneg (by omega)]

/-- The number that a weight stands for, if it is finite. -/
def value? (w : Weight) : Option ℚ :=
  match w.magnitude with
  | .finite m q => some (signed w.isNegative (m * 2 ^ q))
  | .infinite => none
  | .nan => none

def IsFinite (w : Weight) : Prop := w.body < infiniteBody

instance (w : Weight) : Decidable w.IsFinite := inferInstanceAs (Decidable (_ < _))

theorem magnitude_of_isFinite (w : Weight) (h : w.IsFinite) :
    w.magnitude = .finite (significand w.body) ((place w.body : ℤ) - 1074) :=
  magnitudeOfBody_of_lt w.body h

theorem value?_of_isFinite (w : Weight) (h : w.IsFinite) :
    w.value? = some (signed w.isNegative (bodyValue w.body)) := by
  rw [value?, magnitude_of_isFinite w h]
  rfl

theorem isFinite_iff (w : Weight) : w.IsFinite ↔ w.value?.isSome := by
  constructor
  · intro h
    rw [value?_of_isFinite w h]
    rfl
  · intro h
    by_contra hbody
    have hlead : leadingBit ≤ infiniteBody := by decide
    rw [IsFinite] at hbody
    have hlow : ¬ w.body < leadingBit := by omega
    rw [value?, magnitude, magnitudeOfBody, if_neg hlow, if_neg hbody] at h
    by_cases hinf : w.body = infiniteBody
    · simp [hinf] at h
    · simp [hinf] at h

theorem value?_eq_some_iff (w : Weight) (v : ℚ) :
    w.value? = some v ↔ w.IsFinite ∧ signed w.isNegative (bodyValue w.body) = v := by
  constructor
  · intro hv
    have hfinite : w.IsFinite := (isFinite_iff w).mpr (by rw [hv]; rfl)
    rw [value?_of_isFinite w hfinite] at hv
    exact ⟨hfinite, Option.some.inj hv⟩
  · intro ⟨hfinite, hv⟩
    rw [value?_of_isFinite w hfinite, hv]

theorem signBit_eq : signBit = 2 ^ 63 := rfl

theorem ofBody_body (w : Weight) : ofBody w.isNegative w.body = w := by
  have hbits := w.bits.toNat_lt
  have hnat : w.body + (if w.isNegative then signBit else 0) = w.bits.toNat := by
    rw [body, isNegative, signBit_eq]
    by_cases h : 2 ^ 63 ≤ w.bits.toNat
    · rw [decide_eq_true h, if_pos rfl]
      omega
    · rw [decide_eq_false h, if_neg (by decide)]
      omega
  rw [ofBody, hnat, UInt64.ofNat_toNat]

theorem toNat_ofBody (negative : Bool) (b : Nat) (h : b < signBit) :
    (ofBody negative b).bits.toNat = b + if negative then signBit else 0 := by
  have hlt : (b + if negative then signBit else 0) < 2 ^ 64 := by
    rw [signBit_eq] at *
    split <;> omega
  exact UInt64.toNat_ofNat_of_lt' hlt

theorem body_ofBody (negative : Bool) (b : Nat) (h : b < signBit) :
    (ofBody negative b).body = b := by
  rw [body, toNat_ofBody negative b h]
  cases negative with
  | false => exact Nat.mod_eq_of_lt h
  | true =>
    rw [if_pos rfl, Nat.add_mod_right]
    exact Nat.mod_eq_of_lt h

theorem isNegative_ofBody (negative : Bool) (b : Nat) (h : b < signBit) :
    (ofBody negative b).isNegative = negative := by
  rw [isNegative, toNat_ofBody negative b h]
  cases negative with
  | false => simpa using h
  | true => simp

end CallGraph.Weight
