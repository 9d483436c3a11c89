import CallGraph.Graph
import CallGraph.Proofs.Json.Printer
import CallGraph.Proofs.Weight.Nearest
import Mathlib.Data.List.Forall2

namespace CallGraph

open Json Number

/-- A number of hundredths in writing: the whole part without a needless zero, the point, and two
places. -/
inductive HundredthsSpelled (n : Nat) : List Char → Prop
  | intro {whole places : List Char} (isWhole : IsDigits whole)
      (noZero : whole.head? = some '0' → whole = ['0']) (wholeValue : ofDigits whole = n / 100)
      (isPlaces : IsDigits places) (two : places.length = 2)
      (placesValue : ofDigits places = n % 100) :
      HundredthsSpelled n (whole ++ '.' :: places)

namespace Weight

theorem ofDigits_pair (a b : Nat) (ha : a < 10) (hb : b < 10) :
    ofDigits [a.digitChar, b.digitChar] = 10 * a + b := by
  rw [ofDigits, Nat.ofDigitChars_cons_digitChar_of_lt_ten ha,
    Nat.ofDigitChars_cons_digitChar_of_lt_ten hb, Nat.ofDigitChars_nil]
  omega

theorem hundredths_spelled (n : Nat) : HundredthsSpelled n (hundredths n) := by
  have htens : n / 10 % 10 < 10 := Nat.mod_lt _ (by decide)
  have hones : n % 10 < 10 := Nat.mod_lt _ (by decide)
  have hplaces : IsDigits [(n / 10 % 10).digitChar, (n % 10).digitChar] := by
    simp [IsDigits, Nat.isDigit_digitChar, htens, hones]
  have hvalue : ofDigits [(n / 10 % 10).digitChar, (n % 10).digitChar] = n % 100 := by
    rw [ofDigits_pair _ _ htens hones]
    omega
  exact .intro (isDigits_digitChars _) digitChars_of_head? (ofDigits_digitChars _) hplaces rfl
    hvalue

theorem hundredths_whole (k : Nat) : hundredths (100 * k) = digitChars k ++ ['.', '0', '0'] := by
  have hwhole : 100 * k / 100 = k := Nat.mul_div_cancel_left k (by decide)
  have htens : 100 * k / 10 % 10 = 0 := by omega
  have hones : 100 * k % 10 = 0 := by omega
  rw [hundredths, hwhole, htens, hones]
  rfl

theorem abs_signed (negative : Bool) (x : ℚ) (hx : 0 ≤ x) : |signed negative x| = x := by
  cases negative with
  | false => exact abs_of_nonneg hx
  | true =>
    rw [signed, if_pos rfl, abs_neg]
    exact abs_of_nonneg hx

/-- The number of hundredths is rounded once, from the exact value. -/
theorem fixed_of_value? (w : Weight) (v : ℚ) (hv : w.value? = some v) :
    ∃ n, IsRound n (100 * |v|) ∧ w.fixed = w.sign ++ hundredths n := by
  obtain ⟨hfinite, rfl⟩ := (value?_eq_some_iff w v).mp hv
  rw [abs_signed _ _ (bodyValue_nonneg _), fixed, magnitude_of_isFinite w hfinite, bodyValue]
  generalize significand w.body = m
  generalize (place w.body : ℤ) - 1074 = q
  have hround := isRound_roundDiv (Ratio.scaled (100 * m) 2 q).num _
    (Ratio.den_scaled_pos (100 * m) 2 (by decide) q)
  have hvalue : ((Ratio.scaled (100 * m) 2 q).num : ℚ) / (Ratio.scaled (100 * m) 2 q).den =
      100 * (m * 2 ^ q) := by
    have h := Ratio.value_scaled (100 * m) 2 (by decide) q
    push_cast at h
    rwa [mul_assoc] at h
  rw [hvalue] at hround
  exact ⟨_, hround, rfl⟩

/-- A weight in writing: rounded from its exact value to the nearest number of hundredths, a half
going to even, or what it is if it is no number. A sign stands before it if the weight has one, also
when the rest is zero. -/
inductive Shown (w : Weight) : List Char → Prop
  | finite {v : ℚ} {n : Nat} {digits : List Char} (value : w.value? = some v)
      (round : IsRound n (100 * |v|)) (spelled : HundredthsSpelled n digits) :
      Shown w ((if w.isNegative then ['-'] else []) ++ digits)
  | infinite (h : w.magnitude = .infinite) :
      Shown w ((if w.isNegative then ['-'] else []) ++ ['i', 'n', 'f'])
  | nan (h : w.magnitude = .nan) : Shown w ['N', 'a', 'N']

theorem shown_fixed (w : Weight) : w.Shown w.fixed := by
  cases hm : w.magnitude with
  | finite m q =>
    have hv : w.value? = some (signed w.isNegative (m * 2 ^ q)) := by rw [value?, hm]
    obtain ⟨n, hround, hfixed⟩ := fixed_of_value? w _ hv
    rw [hfixed]
    exact .finite hv hround (hundredths_spelled n)
  | infinite =>
    rw [fixed, hm]
    exact .infinite hm
  | nan =>
    rw [fixed, hm]
    exact .nan hm

/-- Two halves of a hundredth, a number just below another one, and one of which only the sign is
left. -/
example : [0x3FC0000000000000, 0x3FD8000000000000, 0x3FEFD70A3D70A3D7, 0xBF50624DD2F1A9FC].map
    (fun bits => String.ofList (fixed ⟨bits⟩)) = ["0.12", "0.38", "0.99", "-0.00"] := by decide

theorem eq_zero_of_negative (w : Weight) (k : Nat) (hv : w.value? = some (k : ℚ))
    (hneg : w.isNegative = true) : k = 0 := by
  obtain ⟨-, hv⟩ := (value?_eq_some_iff w k).mp hv
  have hbody := bodyValue_nonneg w.body
  rw [hneg, signed, if_pos rfl] at hv
  have hk : (k : ℚ) ≤ 0 := by linarith
  exact Nat.le_zero.mp (by exact_mod_cast hk)

/-- A whole number has all of its digits. -/
theorem ofList_fixed_whole (w : Weight) (k : Nat) (hv : w.value? = some (k : ℚ)) :
    String.ofList w.fixed = (if w.isNegative then "-" else "") ++ toString k ++ ".00" := by
  obtain ⟨n, hround, hfixed⟩ := fixed_of_value? w k hv
  have hk : 100 * |(k : ℚ)| = (100 * k : ℕ) := by
    rw [abs_of_nonneg k.cast_nonneg]
    push_cast
    rfl
  rw [hk] at hround
  -- what is whole already is its own nearest number
  have hn : n = 100 * k := Nat.le_antisymm (hround.le_nat _ le_rfl) (hround.nat_le _ le_rfl)
  have hdigits : (toString k).toList = digitChars k := String.toList_ofList
  rw [← String.toList_inj, String.toList_ofList, String.toList_append, String.toList_append,
    hdigits, hfixed, hn, hundredths_whole, sign, List.append_assoc]
  cases w.isNegative with
  | false => rfl
  | true => rfl

end Weight

namespace Graph

/-- All edges, each with the name of its node. -/
def calls (g : Graph) : List (String × Edge) :=
  g.nodes.toList.flatMap fun n => n.edges.map (n.name, ·)

theorem report_eq_lines (g : Graph) : g.report = g.calls.map fun c => c.2.line c.1 := by
  rw [report, calls, List.map_flatMap]
  simp only [List.map_map]
  rfl

theorem length_calls (g : Graph) : g.calls.length = g.edgeCount := by
  rw [calls, List.length_flatMap]
  simp only [List.length_map]
  rfl

/-- Each line of the report tells an edge and its weight. -/
theorem forall₂_report (g : Graph) :
    List.Forall₂ (fun (call : String × Edge) (line : String) => ∃ text : List Char,
        call.2.weight.Shown text ∧
        line = call.1 ++ " is referenced by " ++ call.2.target ++ ", weight " ++ .ofList text)
      g.calls g.report := by
  rw [report_eq_lines, List.forall₂_map_right_iff, List.forall₂_same]
  intro call _
  exact ⟨_, call.2.weight.shown_fixed, rfl⟩

/-- Each line of the report ends in the weight of its edge, rounded from its exact value to the
nearest number of hundredths, a half going to even. A sign stands before it if the weight has one,
also when the rest is zero. -/
theorem report_rounds_weights (g : Graph) :
    List.Forall₂ (fun (call : String × Edge) (line : String) => ∃ text : String,
        line = call.1 ++ " is referenced by " ++ call.2.target ++ ", weight " ++ text ∧
        ∀ v, call.2.weight.value? = some v →
          (∃ n digits, IsRound n (100 * |v|) ∧ HundredthsSpelled n digits ∧
            text.toList = (if call.2.weight.isNegative then ['-'] else []) ++ digits) ∧
          ∀ k : Nat, v = k → (call.2.weight.isNegative = true → k = 0) ∧
            text = (if call.2.weight.isNegative then "-" else "") ++ toString k ++ ".00")
      g.calls g.report := by
  rw [report_eq_lines, List.forall₂_map_right_iff, List.forall₂_same]
  intro call _
  refine ⟨_, rfl, ?_⟩
  intro v hv
  constructor
  · obtain ⟨n, hround, hfixed⟩ := Weight.fixed_of_value? call.2.weight v hv
    refine ⟨n, _, hround, Weight.hundredths_spelled n, ?_⟩
    rw [String.toList_ofList, hfixed]
    rfl
  · intro k hk
    rw [hk] at hv
    exact ⟨Weight.eq_zero_of_negative _ k hv, Weight.ofList_fixed_whole _ k hv⟩

/-- A whole number of thirty-one digits. -/
theorem report_rounds_weights_many_digits :
    let w : Weight := ⟨0x4630000000000000⟩
    w.value? = some ((2 ^ 100 : ℕ) : ℚ) ∧
    ((empty .preserve).addEdge "a" "b" w).report =
      ["a is referenced by b, weight 1267650600228229401496703205376.00"] := by
  intro w
  have hvalue : w.value? = some ((2 ^ 100 : ℕ) : ℚ) := by
    have hmagnitude : w.magnitude = .finite (2 ^ 52) 48 := by decide
    have hsign : w.isNegative = false := by decide
    rw [Weight.value?, hmagnitude, hsign]
    norm_num [Weight.signed]
  have hcalls : ((empty .preserve).addEdge "a" "b" w).calls = [("a", ⟨"b", w⟩)] := by
    simp [calls, addEdge, addNode, empty, addWeight]
  have hlines := report_rounds_weights ((empty .preserve).addEdge "a" "b" w)
  rw [hcalls, List.forall₂_cons_left_iff] at hlines
  obtain ⟨_, _, ⟨text, rfl, htext⟩, hrest, hreport⟩ := hlines
  obtain rfl := List.forall₂_nil_left_iff.mp hrest
  obtain ⟨-, rfl⟩ := (htext _ hvalue).2 _ rfl
  refine ⟨hvalue, hreport.trans ?_⟩
  decide +kernel

end Graph
end CallGraph
