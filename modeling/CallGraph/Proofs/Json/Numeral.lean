import CallGraph.Proofs.Json.Printer
import CallGraph.Proofs.Weight.Decimal

namespace CallGraph.Json

open Weight Number

/-- A number as it is written, the sign apart: the digits on both sides of the point, and the power
of ten. -/
structure Numeral where
  whole : List Char
  places : List Char
  power : Option Int
  isWhole : IsDigits whole
  noZero : whole.head? = some '0' → whole = ['0']
  isPlaces : ∀ c ∈ places, c.isDigit = true

inductive PowerSpelled : List Char → Option Int → Prop
  | none : PowerSpelled [] none
  | plain {e : Char} {ds : List Char} (mark : e = 'e' ∨ e = 'E') (digits : IsDigits ds) :
      PowerSpelled (e :: ds) (some (ofDigits ds))
  | plus {e : Char} {ds : List Char} (mark : e = 'e' ∨ e = 'E') (digits : IsDigits ds) :
      PowerSpelled (e :: '+' :: ds) (some (ofDigits ds))
  | minus {e : Char} {ds : List Char} (mark : e = 'e' ∨ e = 'E') (digits : IsDigits ds) :
      PowerSpelled (e :: '-' :: ds) (some (-ofDigits ds))

/-- Decimal places with the point before them. -/
def pointed (ds : List Char) : List Char := if ds = [] then [] else '.' :: ds

namespace Numeral

def Spelled (n : Numeral) (cs : List Char) : Prop :=
  ∃ power, PowerSpelled power n.power ∧ cs = n.whole ++ (pointed n.places ++ power)

/-- The exact value of what is written. -/
def value (n : Numeral) : ℚ :=
  (ofDigits n.whole + ofDigits n.places / 10 ^ n.places.length) * 10 ^ n.power.getD 0

/-- All digits as one number. -/
def decimal (n : Numeral) : Decimal :=
  ⟨ofDigits (n.whole ++ n.places), n.power.getD 0 - n.places.length⟩

theorem value_decimal (n : Numeral) : n.decimal.value = n.value := by
  have hdigits : ofDigits (n.whole ++ n.places) =
      10 ^ n.places.length * ofDigits n.whole + ofDigits n.places := by
    rw [ofDigits, Nat.ofDigitChars_append, Nat.ofDigitChars_eq_ofDigitChars_zero]
    rfl
  have hten : (10 : ℚ) ^ n.places.length ≠ 0 := by positivity
  rw [decimal, Decimal.value, hdigits, value, zpow_sub₀ (by norm_num), zpow_natCast]
  push_cast
  field_simp

end Numeral

/-- The numeral has this sign and this exact value. -/
def Denotes (cs : List Char) (negative : Bool) (v : ℚ) : Prop :=
  ∃ (n : Numeral) (unsigned : List Char), n.Spelled unsigned ∧
    cs = (if negative then ['-'] else []) ++ unsigned ∧ v = signed negative n.value

theorem exists_pointed (cs : List Char) :
    (cs = [] ∨ ∃ ds, IsDigits ds ∧ cs = '.' :: ds) ↔
      ∃ ds, (∀ c ∈ ds, c.isDigit = true) ∧ cs = pointed ds := by
  constructor
  · intro h
    obtain rfl | ⟨ds, hds, rfl⟩ := h
    · exact ⟨[], by simp, rfl⟩
    · exact ⟨ds, hds.2, (if_neg hds.1).symm⟩
  · intro ⟨ds, hds, hcs⟩
    by_cases hnil : ds = []
    · exact .inl (hcs.trans (if_pos hnil))
    · exact .inr ⟨ds, ⟨hnil, hds⟩, hcs.trans (if_neg hnil)⟩

theorem exists_powerSpelled (cs : List Char) :
    (cs = [] ∨ ∃ e s ds, (e = 'e' ∨ e = 'E') ∧ (s = [] ∨ s = ['+'] ∨ s = ['-']) ∧
      IsDigits ds ∧ cs = e :: (s ++ ds)) ↔ ∃ p, PowerSpelled cs p := by
  constructor
  · intro h
    obtain rfl | ⟨e, s, ds, mark, hsign, digits, rfl⟩ := h
    · exact ⟨_, .none⟩
    · obtain rfl | rfl | rfl := hsign
      · exact ⟨_, .plain mark digits⟩
      · exact ⟨_, .plus mark digits⟩
      · exact ⟨_, .minus mark digits⟩
  · intro ⟨p, h⟩
    cases h with
    | none => exact .inl rfl
    | @plain e ds mark digits => exact .inr ⟨e, [], ds, mark, by simp, digits, rfl⟩
    | @plus e ds mark digits => exact .inr ⟨e, ['+'], ds, mark, by simp, digits, rfl⟩
    | @minus e ds mark digits => exact .inr ⟨e, ['-'], ds, mark, by simp, digits, rfl⟩

/-- Every numeral has an exact value, and nothing else has. -/
theorem isNumeral_iff (cs : List Char) : IsNumeral cs ↔ ∃ negative v, Denotes cs negative v := by
  constructor
  · intro h
    obtain ⟨hsign, isWhole, noZero, hplaces, hpower⟩ := h
    obtain ⟨ds, isPlaces, rfl⟩ := (exists_pointed _).mp hplaces
    obtain ⟨p, hp⟩ := (exists_powerSpelled _).mp hpower
    obtain rfl | rfl := hsign
    · exact ⟨false, _, ⟨_, ds, p, isWhole, noZero, isPlaces⟩, _, ⟨_, hp, rfl⟩, rfl, rfl⟩
    · exact ⟨true, _, ⟨_, ds, p, isWhole, noZero, isPlaces⟩, _, ⟨_, hp, rfl⟩, rfl, rfl⟩
  · intro ⟨negative, v, n, unsigned, ⟨power, hp, hunsigned⟩, hcs, _⟩
    have hsign : (if negative then ['-'] else []) = [] ∨ (if negative then ['-'] else []) = ['-'] := by
      cases negative <;> simp
    rw [hcs, hunsigned]
    exact .mk hsign n.isWhole n.noZero ((exists_pointed _).mpr ⟨_, n.isPlaces, rfl⟩)
      ((exists_powerSpelled _).mpr ⟨_, hp⟩)

theorem spanDigits_append (ds rest : List Char) (hds : ∀ c ∈ ds, c.isDigit = true)
    (hrest : ∀ c ∈ rest.head?, c.isDigit = false) : spanDigits (ds ++ rest) = (ds, rest) := by
  have hspan : rest.takeWhile Char.isDigit = [] ∧ rest.dropWhile Char.isDigit = rest := by
    cases rest with
    | nil => exact ⟨rfl, rfl⟩
    | cons c rest =>
      have hc := hrest c (by simp)
      simp [hc]
  rw [spanDigits, List.span_eq_takeWhile_dropWhile, List.takeWhile_append_of_pos hds,
    List.dropWhile_append_of_pos hds, hspan.1, hspan.2, List.append_nil]

theorem head_of_powerSpelled {cs : List Char} {p : Option Int} (h : PowerSpelled cs p) :
    ∀ c ∈ cs.head?, c = 'e' ∨ c = 'E' := by
  cases h with
  | none => simp
  | plain mark digits => simpa using mark
  | plus mark digits => simpa using mark
  | minus mark digits => simpa using mark

theorem ne_of_isDigit {c : Char} (hc : c.isDigit = true) (x : Char) (hx : x.isDigit = false) :
    c ≠ x := by
  intro heq
  rw [heq, hx] at hc
  exact absurd hc (by decide)

theorem exponent?_of_spelled {cs : List Char} {p : Option Int} (h : PowerSpelled cs p) :
    exponent? cs = some p := by
  have hall : ∀ ds, IsDigits ds → ds ≠ [] ∧ ds.all Char.isDigit = true := by
    intro ds hds
    exact ⟨hds.1, List.all_eq_true.mpr hds.2⟩
  cases h with
  | none => rfl
  | plain mark digits =>
    obtain ⟨d, r, rfl⟩ := List.exists_cons_of_ne_nil digits.1
    have hd := digits.2 d (by simp)
    have hminus := ne_of_isDigit hd '-' (by decide)
    have hplus := ne_of_isDigit hd '+' (by decide)
    simp [exponent?, mark, hminus, hplus, hall _ digits]
  | plus mark digits => simp [exponent?, mark, hall _ digits]
  | minus mark digits => simp [exponent?, mark, hall _ digits]

theorem head_pointed (ds power : List Char) {p : Option Int} (h : PowerSpelled power p) :
    ∀ c ∈ (pointed ds ++ power).head?, c.isDigit = false := by
  intro c hc
  rw [pointed] at hc
  split at hc
  case isTrue =>
    obtain rfl | rfl := head_of_powerSpelled h c hc
    · decide
    · decide
  case isFalse =>
    obtain rfl : '.' = c := by simpa using hc
    decide

theorem places?_pointed (ds power : List Char) {p : Option Int} (hds : ∀ c ∈ ds, c.isDigit = true)
    (h : PowerSpelled power p) : places? (pointed ds ++ power) = some (ds, power) := by
  have hhead := head_of_powerSpelled h
  cases ds with
  | nil =>
    cases power with
    | nil => rfl
    | cons c r =>
      obtain rfl | rfl := hhead c rfl
      · rfl
      · rfl
  | cons d ds =>
    have hspan := spanDigits_append (d :: ds) power hds (head_pointed [] power h)
    change places? ('.' :: (d :: ds ++ power)) = _
    rw [places?, hspan]

namespace Numeral

/-- What is read: an integer of 64 bits without point and power, else the nearest number. -/
def read (negative : Bool) (n : Numeral) : Option Number :=
  (if n.places = [] ∧ n.power = none then int? negative (ofDigits n.whole) else none).or
    ((n.decimal.nearest? negative).map .real)

theorem unsigned?_of_spelled (negative : Bool) (n : Numeral) {cs : List Char} (h : n.Spelled cs) :
    unsigned? negative cs = n.read negative := by
  obtain ⟨power, hpower, rfl⟩ := h
  have hspan := spanDigits_append n.whole _ n.isWhole.2 (head_pointed n.places power hpower)
  have hwhole : ¬ (n.whole = [] ∨ 1 < n.whole.length ∧ n.whole.head? = some '0') := by
    intro hbad
    obtain hnil | ⟨hlen, hzero⟩ := hbad
    · exact n.isWhole.1 hnil
    · rw [n.noZero hzero] at hlen
      exact absurd hlen (by decide)
  simp [unsigned?, hspan, hwhole, places?_pointed n.places power n.isPlaces hpower,
    exponent?_of_spelled hpower, read, decimal]

theorem ofChars?_of_spelled (negative : Bool) (n : Numeral) {cs : List Char} (h : n.Spelled cs) :
    ofChars? ((if negative then ['-'] else []) ++ cs) = n.read negative := by
  have hread := unsigned?_of_spelled negative n h
  cases negative with
  | true => exact hread
  | false =>
    have hsign : ∀ r, cs ≠ '-' :: r := by
      intro r heq
      obtain ⟨power, -, rfl⟩ := h
      obtain ⟨d, ds, hd⟩ := List.exists_cons_of_ne_nil n.isWhole.1
      rw [hd] at heq
      have hdigit := n.isWhole.2 d (by simp [hd])
      exact ne_of_isDigit hdigit '-' (by decide) (List.cons.inj heq).1
    rw [if_neg (by decide), List.nil_append, ofChars?]
    · exact hread
    · exact hsign

end Numeral

/-- The number that stands for an exact value: an integer is that value, any other number is the
nearest one. The sign is kept, and an integer zero has none. -/
def Number.StandsFor : Number → Bool → ℚ → Prop
  | .int n, negative, v => decide (n < 0) = negative ∧ v = n
  | .real w, negative, v => w.isNegative = negative ∧ w.IsNearest v

theorem standsFor_of_int? (negative : Bool) (n : Nat) (m : Number) (h : int? negative n = some m) :
    m.StandsFor negative (signed negative n) := by
  rw [int?] at h
  cases negative with
  | false =>
    rw [if_neg (by decide)] at h
    split at h
    case isTrue =>
      obtain rfl := Option.some.inj h
      exact ⟨decide_eq_false (by omega), (Int.cast_natCast n).symm⟩
    case isFalse => exact absurd h (by simp)
  | true =>
    rw [if_pos rfl] at h
    split at h
    case isTrue hn =>
      obtain rfl := Option.some.inj h
      refine ⟨decide_eq_true (by omega), ?_⟩
      rw [Int.cast_neg, Int.cast_natCast]
      rfl
    case isFalse => exact absurd h (by simp)

theorem Numeral.standsFor_of_read (negative : Bool) (n : Numeral) (m : Number)
    (h : n.read negative = some m) : m.StandsFor negative (signed negative n.value) := by
  obtain hint | ⟨_, hreal⟩ := Option.or_eq_some_iff.mp h
  · split at hint
    case isTrue hplain =>
      have hvalue : n.value = ofDigits n.whole := by
        rw [value, hplain.1, hplain.2, List.length_nil, Option.getD_none, zpow_zero, pow_zero,
          div_one, mul_one]
        exact add_zero _
      rw [hvalue]
      exact standsFor_of_int? negative _ m hint
    case isFalse => exact absurd hint (by simp)
  · obtain ⟨w, hw, rfl⟩ := Option.map_eq_some_iff.mp hreal
    rw [← value_decimal]
    exact Decimal.isNearest_of_nearest? negative _ w hw

theorem standsFor_of_denotes (cs : List Char) (negative : Bool) (v : ℚ) (m : Number)
    (h : Denotes cs negative v) (hm : ofChars? cs = some m) : m.StandsFor negative v := by
  obtain ⟨n, unsigned, hspelled, rfl, rfl⟩ := h
  rw [Numeral.ofChars?_of_spelled negative n hspelled] at hm
  exact n.standsFor_of_read negative m hm

end CallGraph.Json
