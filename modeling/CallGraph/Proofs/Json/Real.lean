import CallGraph.Proofs.Json.Numeral
import CallGraph.Weight.Format

namespace CallGraph

open Json Number

theorem isDigit_of_mem_zeros {n : Nat} {c : Char} (h : c ∈ List.replicate n '0') :
    c.isDigit = true := by
  rw [List.eq_of_mem_replicate h]
  decide

theorem powerSpelled_mark (p : Int) :
    PowerSpelled (['e', if p < 0 then '-' else '+'] ++ digitChars p.natAbs) (some p) := by
  have hdigits := isDigits_digitChars p.natAbs
  by_cases h : p < 0
  · have hp : p = -(ofDigits (digitChars p.natAbs) : ℤ) := by
      rw [ofDigits_digitChars]
      omega
    rw [if_pos h]
    nth_rewrite 2 [hp]
    exact .minus (.inl rfl) hdigits
  · have hp : p = (ofDigits (digitChars p.natAbs) : ℤ) := by
      rw [ofDigits_digitChars]
      omega
    rw [if_neg h]
    nth_rewrite 2 [hp]
    exact .plus (.inl rfl) hdigits

namespace Decimal

/-- The digits up to the point end in zeros, and one place follows. -/
theorem positional_of_nonneg (d : Decimal) (hd : d.coefficient = 0 → d.exponent = 0)
    (he : 0 ≤ d.exponent) :
    ∃ n : Numeral, n.Spelled d.positional ∧ n.decimal.value = d.value ∧ n.places ≠ [] := by
  have hdigits := isDigits_digitChars d.coefficient
  have hwhole : IsDigits (digitChars d.coefficient ++ List.replicate d.exponent.toNat '0') := by
    refine ⟨List.append_ne_nil_of_left_ne_nil hdigits.1 _, ?_⟩
    intro c hc
    obtain hc | hc := List.mem_append.mp hc
    · exact hdigits.2 c hc
    · exact isDigit_of_mem_zeros hc
  have hzero : (digitChars d.coefficient ++ List.replicate d.exponent.toNat '0').head? = some '0' →
      digitChars d.coefficient ++ List.replicate d.exponent.toNat '0' = ['0'] := by
    intro hhead
    rw [List.head?_append_of_ne_nil _ hdigits.1] at hhead
    have hc := eq_zero_of_head?_digitChars hhead
    rw [hc, hd hc]
    rfl
  have hcoefficient : ofDigits (digitChars d.coefficient ++ List.replicate d.exponent.toNat '0' ++
      ['0']) = d.coefficient * 10 ^ d.exponent.toNat * 10 := by
    rw [ofDigits, Nat.ofDigitChars_append, Nat.ofDigitChars_append,
      ← List.replicate_one, Nat.ofDigitChars_replicate_zero, Nat.ofDigitChars_replicate_zero]
    change 10 ^ 1 * (10 ^ d.exponent.toNat * ofDigits (digitChars d.coefficient)) = _
    rw [ofDigits_digitChars]
    ring
  refine ⟨⟨_, ['0'], none, hwhole, hzero, by simp⟩, ⟨[], .none, ?_⟩, ?_, by simp⟩
  · rw [positional, if_pos he]
    rfl
  · have hpow : (10 : ℚ) ^ d.exponent = 10 ^ d.exponent.toNat := by
      rw [← zpow_natCast, Int.toNat_of_nonneg he]
    rw [Numeral.decimal, value, value, hcoefficient, hpow]
    change ((d.coefficient * 10 ^ d.exponent.toNat * 10 : ℕ) : ℚ) * 10 ^ (-1 : ℤ) = _
    push_cast
    rw [zpow_neg_one, mul_inv_cancel_right₀ (by norm_num)]

theorem positional_of_few_places (d : Decimal) (he : d.exponent < 0)
    (hlt : (-d.exponent).toNat < (digitChars d.coefficient).length) :
    ∃ n : Numeral, n.Spelled d.positional ∧ n.decimal = d ∧ n.places ≠ [] := by
  have hdigits := isDigits_digitChars d.coefficient
  have hpositional : d.positional =
      (digitChars d.coefficient).take ((digitChars d.coefficient).length - (-d.exponent).toNat) ++
        '.' :: (digitChars d.coefficient).drop
          ((digitChars d.coefficient).length - (-d.exponent).toNat) := by
    rw [positional, if_neg (by omega)]
    exact if_pos hlt
  have hvalue := ofDigits_digitChars d.coefficient
  have hone : d.coefficient = 0 → (digitChars d.coefficient).length = 1 := by
    intro hc
    rw [hc]
    rfl
  have hhead := @eq_zero_of_head?_digitChars d.coefficient
  rw [hpositional]
  generalize digitChars d.coefficient = digits at *
  obtain ⟨k, hk⟩ : ∃ k, k + 1 = digits.length - (-d.exponent).toNat :=
    ⟨_, Nat.sub_add_cancel (by omega)⟩
  rw [← hk]
  have hlength : (digits.drop (k + 1)).length = (-d.exponent).toNat := by
    rw [List.length_drop]
    omega
  have hplaces : digits.drop (k + 1) ≠ [] := by
    apply List.ne_nil_of_length_pos
    omega
  have hwhole : IsDigits (digits.take (k + 1)) := by
    refine ⟨List.ne_nil_of_length_pos ?_, fun c hc => hdigits.2 c (List.mem_of_mem_take hc)⟩
    rw [List.length_take]
    omega
  have hzero : (digits.take (k + 1)).head? = some '0' → digits.take (k + 1) = ['0'] := by
    intro hc
    rw [List.head?_take] at hc
    have hlen := hone (hhead (by simpa using hc))
    omega
  refine ⟨⟨_, digits.drop (k + 1), none, hwhole, hzero,
    fun c hc => hdigits.2 c (List.mem_of_mem_drop hc)⟩, ⟨[], .none, ?_⟩, ?_, hplaces⟩
  · rw [pointed, if_neg hplaces, List.append_nil]
  · apply Decimal.ext
    · change ofDigits (digits.take (k + 1) ++ digits.drop (k + 1)) = d.coefficient
      rw [List.take_append_drop, hvalue]
    · change (0 : ℤ) - (digits.drop (k + 1)).length = d.exponent
      omega

theorem positional_of_many_places (d : Decimal) (he : d.exponent < 0)
    (hge : (digitChars d.coefficient).length ≤ (-d.exponent).toNat) :
    ∃ n : Numeral, n.Spelled d.positional ∧ n.decimal = d ∧ n.places ≠ [] := by
  have hdigits := isDigits_digitChars d.coefficient
  have hpositional : d.positional = '0' :: '.' :: List.replicate
      ((-d.exponent).toNat - (digitChars d.coefficient).length) '0' ++ digitChars d.coefficient := by
    rw [positional, if_neg (by omega)]
    exact if_neg (by omega)
  have hvalue := ofDigits_digitChars d.coefficient
  rw [hpositional]
  generalize digitChars d.coefficient = digits at *
  obtain ⟨k, hk⟩ : ∃ k, k = (-d.exponent).toNat - digits.length := ⟨_, rfl⟩
  rw [← hk]
  have hplaces : List.replicate k '0' ++ digits ≠ [] := List.append_ne_nil_of_right_ne_nil _ hdigits.1
  have hdigit : ∀ c ∈ List.replicate k '0' ++ digits, c.isDigit = true := by
    intro c hc
    obtain hc | hc := List.mem_append.mp hc
    · exact isDigit_of_mem_zeros hc
    · exact hdigits.2 c hc
  refine ⟨⟨['0'], List.replicate k '0' ++ digits, none, by simp [IsDigits], fun _ => rfl, hdigit⟩,
    ⟨[], .none, ?_⟩, ?_, hplaces⟩
  · rw [pointed, if_neg hplaces, List.append_nil]
    rfl
  · apply Decimal.ext
    · change ofDigits (['0'] ++ (List.replicate k '0' ++ digits)) = d.coefficient
      rw [← hvalue, ofDigits, Nat.ofDigitChars_append, Nat.ofDigitChars_append,
        Nat.ofDigitChars_replicate_zero]
      rfl
    · change (0 : ℤ) - (List.replicate k '0' ++ digits).length = d.exponent
      rw [List.length_append, List.length_replicate]
      omega

/-- One digit before the point, the others behind it. -/
theorem scientific_spelled (d : Decimal) :
    ∃ n : Numeral, n.Spelled d.scientific ∧ n.decimal = d ∧ n.power ≠ none := by
  have hdigits := isDigits_digitChars d.coefficient
  have hvalue := ofDigits_digitChars d.coefficient
  have hmark := powerSpelled_mark d.leadingPower
  have hlead : d.leadingPower = d.exponent + (digitChars d.coefficient).length - 1 := rfl
  rw [scientific]
  generalize d.leadingPower = power at *
  generalize digitChars d.coefficient = digits at *
  split
  case h_1 first second rest =>
    have hfirst : IsDigits [first] := ⟨by simp, by simpa using hdigits.2 first (by simp)⟩
    have hzero : [first].head? = some '0' → [first] = ['0'] := by simp
    have hrest : ∀ c ∈ second :: rest, c.isDigit = true := fun c hc =>
      hdigits.2 c (List.mem_cons_of_mem _ hc)
    refine ⟨⟨[first], second :: rest, some power, hfirst, hzero, hrest⟩, ⟨_, hmark, rfl⟩, ?_,
      by simp⟩
    apply Decimal.ext
    · exact hvalue
    · change power - ((second :: rest).length : ℤ) = d.exponent
      rw [hlead, List.length_cons]
      omega
  case h_2 hshort =>
    obtain ⟨first, rest, rfl⟩ := List.exists_cons_of_ne_nil hdigits.1
    have hnil : rest = [] := by
      cases rest with
      | nil => rfl
      | cons second rest => exact absurd rfl (hshort first second rest)
    subst hnil
    have hzero : [first].head? = some '0' → [first] = ['0'] := by simp
    refine ⟨⟨[first], [], some power, hdigits, hzero, by simp⟩, ⟨_, hmark, rfl⟩, ?_, by simp⟩
    apply Decimal.ext
    · exact hvalue
    · change power - (0 : ℤ) = d.exponent
      rw [hlead, List.length_singleton]
      omega

/-- A decimal is written as a numeral of the same value, with a point or a power of ten. -/
theorem chars_spelled (d : Decimal) (hd : d.coefficient = 0 → d.exponent = 0) :
    ∃ n : Numeral, n.Spelled d.chars ∧ n.decimal.value = d.value ∧
      ¬ (n.places = [] ∧ n.power = none) := by
  rw [chars]
  split
  case isTrue =>
    by_cases he : 0 ≤ d.exponent
    · obtain ⟨n, hspelled, hvalue, hplaces⟩ := positional_of_nonneg d hd he
      exact ⟨n, hspelled, hvalue, fun h => hplaces h.1⟩
    by_cases hlt : (-d.exponent).toNat < (digitChars d.coefficient).length
    · obtain ⟨n, hspelled, hdecimal, hplaces⟩ := positional_of_few_places d (by omega) hlt
      exact ⟨n, hspelled, congrArg value hdecimal, fun h => hplaces h.1⟩
    · obtain ⟨n, hspelled, hdecimal, hplaces⟩ :=
        positional_of_many_places d (by omega) (Nat.not_lt.mp hlt)
      exact ⟨n, hspelled, congrArg value hdecimal, fun h => hplaces h.1⟩
  case isFalse =>
    obtain ⟨n, hspelled, hdecimal, hpower⟩ := scientific_spelled d
    exact ⟨n, hspelled, congrArg value hdecimal, fun h => hpower h.2⟩

end Decimal

/-- A finite weight is read as it was written, to the last bit. -/
theorem Json.Number.readsBack_real (w : Weight) (h : w.IsFinite) : ReadsBack (.real w) := by
  have hchars : Number.chars (.real w) = (if w.isNegative then ['-'] else []) ++
      (Decimal.shortest w.body (Weight.significand w.body) (Weight.place w.body - 1074)).chars := by
    rw [Number.chars, Weight.magnitude_of_isFinite w h]
    rfl
  have hbody := Decimal.nearestBody?_shortest w.body h
  have hzero := Decimal.exponent_shortest w.body h
  rw [ReadsBack, hchars]
  generalize Decimal.shortest _ _ _ = d at *
  obtain ⟨n, hspelled, hvalue, hmarked⟩ := d.chars_spelled hzero
  constructor
  · exact (isNumeral_iff _).mpr ⟨w.isNegative, _, n, _, hspelled, rfl, rfl⟩
  · rw [Numeral.ofChars?_of_spelled w.isNegative n hspelled, Numeral.read, if_neg hmarked,
      Option.none_or, Decimal.nearest?_congr w.isNegative hvalue, Decimal.nearest?, hbody,
      Option.map_some, Option.map_some, Weight.ofBody_body]

end CallGraph
