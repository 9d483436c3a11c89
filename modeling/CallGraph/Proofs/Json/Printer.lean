import CallGraph.Json.Printer
import CallGraph.Proofs.Json.Grammar
import Mathlib.Data.List.TakeDrop
import Mathlib.Data.List.TakeWhile
import Mathlib.Tactic.IntervalCases

namespace CallGraph

theorem isDigit_of_mem_digitChars {n : Nat} {c : Char} (h : c ∈ digitChars n) : c.isDigit = true :=
  Nat.isDigit_of_mem_toDigits (by decide) (by decide) h

theorem head?_digitChars (n : Nat) (hn : 0 < n) : (digitChars n).head? ≠ some '0' := by
  induction n using Nat.strongRecOn with
  | ind n ih =>
    rw [digitChars, Nat.toDigits_eq_if (by decide)]
    by_cases hlt : n < 10
    · rw [if_pos hlt]
      interval_cases n <;> decide
    · have hfront := ih (n / 10) (by omega) (by omega)
      rw [if_neg hlt, List.head?_append, List.head?_eq_some_head Nat.toDigits_ne_nil]
      rw [digitChars, List.head?_eq_some_head Nat.toDigits_ne_nil] at hfront
      exact hfront

theorem eq_zero_of_head?_digitChars {n : Nat} (h : (digitChars n).head? = some '0') : n = 0 := by
  by_contra hn
  exact head?_digitChars n (Nat.pos_of_ne_zero hn) h

theorem digitChars_of_head? {n : Nat} (h : (digitChars n).head? = some '0') :
    digitChars n = ['0'] := by
  rw [eq_zero_of_head?_digitChars h]
  rfl

namespace Json

theorem isDigits_digitChars (n : Nat) : IsDigits (digitChars n) :=
  ⟨Nat.toDigits_ne_nil, fun _ hc => isDigit_of_mem_digitChars hc⟩

namespace Number

/-- The number is written as a numeral, and the numeral is read as the number. -/
def ReadsBack (n : Number) : Prop := IsNumeral n.chars ∧ ofChars? n.chars = some n

theorem chars_nat (n : Nat) : chars (.int n) = digitChars n := by
  rw [chars, if_neg (by omega), Int.natAbs_natCast]

theorem isNumeral_digitChars (n : Nat) : IsNumeral (digitChars n) := by
  have h := IsNumeral.mk (.inl rfl) (isDigits_digitChars n) digitChars_of_head? (.inl rfl)
    (.inl rfl)
  simpa using h

theorem spanDigits_digitChars (n : Nat) : spanDigits (digitChars n) = (digitChars n, []) := by
  have hdigits : ∀ c ∈ digitChars n, c.isDigit = true := fun _ hc => isDigit_of_mem_digitChars hc
  rw [spanDigits, List.span_eq_takeWhile_dropWhile, List.takeWhile_eq_self_iff.mpr hdigits,
    List.dropWhile_eq_nil_iff.mpr hdigits]

theorem ofDigits_digitChars (n : Nat) : ofDigits (digitChars n) = n :=
  Nat.ofDigitChars_toDigits (by decide) (by decide)

theorem unsigned?_digitChars (n : Nat) (h : n < 2 ^ 64) :
    unsigned? false (digitChars n) = some (.int n) := by
  have hcond : ¬ (digitChars n = [] ∨
      1 < (digitChars n).length ∧ (digitChars n).head? = some '0') := by
    rintro (hnil | ⟨hlen, hhead⟩)
    · exact Nat.toDigits_ne_nil hnil
    · rw [digitChars_of_head? hhead] at hlen
      exact absurd hlen (by decide)
  have hint : int? false n = some (.int n) := by
    have h' : n < Nat.pow 2 64 := h
    simp [int?, h']
  simp [unsigned?, spanDigits_digitChars, hcond, places?, exponent?, ofDigits_digitChars, hint]

theorem readsBack_nat (n : Nat) (h : n < 2 ^ 64) : ReadsBack (.int n) := by
  rw [ReadsBack, chars_nat]
  refine ⟨isNumeral_digitChars n, ?_⟩
  have hsign : ∀ cs, digitChars n ≠ '-' :: cs := by
    intro cs heq
    have hc : '-' ∈ digitChars n := by simp [heq]
    exact absurd (isDigit_of_mem_digitChars hc) (by decide)
  rw [ofChars?]
  · exact unsigned?_digitChars n h
  · exact hsign

end Number

theorem isCode_hexDigit (n : Nat) (h : n < 0x20) :
    IsCode ['0', '0', hexDigit (n / 16), hexDigit (n % 16)] n :=
  ⟨'0', '0', _, _, 0, 0, n / 16, n % 16, rfl, ⟨by decide, .inl rfl⟩, ⟨by decide, .inl rfl⟩,
    ⟨by omega, .inl rfl⟩, ⟨by omega, .inl rfl⟩, by omega⟩

theorem charSpelled_escape (c : Char) : CharSpelled (escape c) c := by
  rw [escape]
  by_cases hquote : c = '"'
  · subst hquote
    exact .short (by decide)
  by_cases hback : c = '\\'
  · subst hback
    exact .short (by decide)
  by_cases hprint : 0x20 ≤ c.toNat
  · rw [if_neg hquote, if_neg hback, if_pos hprint]
    exact .plain hprint hquote hback
  · rw [if_neg hquote, if_neg hback, if_neg hprint]
    have hc : Char.ofNat c.toNat = c := Char.ofNat_toNat c
    split
    case h_6 n _ _ _ _ _ =>
      have hcode := CharSpelled.code (isCode_hexDigit c.toNat (by omega)) (by omega)
      rwa [hc] at hcode
    all_goals
      next h =>
        rw [h] at hc
        subst hc
        exact .short (by decide)

theorem textSpelled_flatMap_escape (s : List Char) : TextSpelled (s.flatMap escape) s := by
  induction s with
  | nil => exact .nil
  | cons c s ih => exact .cons (charSpelled_escape c) ih

theorem spelled_quote (s : String) : Token.Spelled (quote s) (.str s) := by
  have h := Token.Spelled.str (textSpelled_flatMap_escape s.toList)
  rwa [String.ofList_toList] at h

theorem lexes_quote (s : String) {cs : List Char} {ts : List Token} (rest : Lexes cs ts) :
    Lexes (quote s ++ cs) (.str s :: ts) :=
  .token (spelled_quote s) (fun hword => False.elim hword) rest

/-- What a layout puts between tokens: blanks, and the colon. -/
structure Layout.IsBlank (l : Layout) : Prop where
  newline : ∀ depth, ∀ c ∈ l.newline depth, Json.IsBlank c
  colon : ∃ bs, l.colon = ':' :: bs ∧ ∀ c ∈ bs, Json.IsBlank c

theorem Layout.isBlank_indented : Layout.indented.IsBlank where
  newline depth c hc := by
    obtain rfl | hc := List.mem_cons.mp hc
    · exact .inr (.inr (.inl rfl))
    · exact .inl (List.eq_of_mem_replicate hc)
  colon := ⟨[' '], rfl, by simp [Json.IsBlank]⟩

section Layout

variable (l : Layout)

/-- The value is written with its tokens, whatever comes after it. -/
def Prints (v : Json) : Prop := ∀ depth cs ts, Ends cs → Lexes cs ts →
  Lexes (chars l depth v ++ cs) (v.tokens ++ ts)

variable {l}

theorem lexes_key (hl : l.IsBlank) (k : String) {cs : List Char} {ts : List Token}
    (h : Lexes cs ts) : Lexes (quote k ++ (l.colon ++ cs)) (.str k :: .colon :: ts) := by
  obtain ⟨bs, hcolon, hbs⟩ := hl.colon
  rw [hcolon]
  exact lexes_quote k (.mark .colon id (h.blanks hbs))

theorem ends_itemChars (depth : Nat) (vs : List Json) {cs : List Char} (h : Ends cs) :
    Ends (itemChars l depth vs ++ cs) := by
  cases vs with
  | nil => exact h
  | cons v vs => simp [itemChars, Ends]

theorem ends_fieldChars (depth : Nat) (fs : List (String × Json)) {cs : List Char} (h : Ends cs) :
    Ends (fieldChars l depth fs ++ cs) := by
  cases fs with
  | nil => exact h
  | cons f fs => simp [fieldChars, Ends]

theorem lexes_itemChars (hl : l.IsBlank) (depth : Nat) (vs : List Json) (hvs : ∀ v ∈ vs, Prints l v)
    {cs : List Char} {ts : List Token} (hends : Ends cs) (h : Lexes cs ts) :
    Lexes (itemChars l depth vs ++ cs) (itemTokens vs ++ ts) := by
  induction vs with
  | nil => exact h
  | cons v vs ih =>
    have hrest := ih fun v hv => hvs v (by simp [hv])
    have hv := hvs v (by simp) depth _ _ (ends_itemChars depth vs hends) hrest
    have hitem := Lexes.mark .comma id (hv.blanks (hl.newline depth))
    simpa [itemChars, itemTokens] using hitem

theorem lexes_fieldChars (hl : l.IsBlank) (depth : Nat) (fs : List (String × Json))
    (hfs : ∀ f ∈ fs, Prints l f.2) {cs : List Char} {ts : List Token} (hends : Ends cs)
    (h : Lexes cs ts) : Lexes (fieldChars l depth fs ++ cs) (fieldTokens fs ++ ts) := by
  induction fs with
  | nil => exact h
  | cons f fs ih =>
    obtain ⟨k, v⟩ := f
    have hrest := ih fun f hf => hfs f (by simp [hf])
    have hv := hfs (k, v) (by simp) depth _ _ (ends_fieldChars depth fs hends) hrest
    have hfield := Lexes.mark .comma id ((lexes_key hl k hv).blanks (hl.newline depth))
    simpa [fieldChars, fieldTokens] using hfield

theorem prints (hl : l.IsBlank) (v : Json) (hv : ∀ n, .num n ∈ v.tokens → n.ReadsBack) :
    Prints l v := by
  induction v using Json.induction with
  | hnull => exact fun _ cs ts hends h => .token .null (fun _ => hends) h
  | hbool b =>
    intro depth cs ts hends h
    cases b with
    | false => exact .token .no (fun _ => hends) h
    | true => exact .token .yes (fun _ => hends) h
  | hnum n =>
    intro depth cs ts hends h
    obtain ⟨hnumeral, hvalue⟩ := hv n (by simp [tokens])
    exact .token (.num hnumeral hvalue) (fun _ => hends) h
  | hstr s => exact fun _ cs ts _ h => lexes_quote s h
  | harr vs ih =>
    intro depth cs ts hends h
    have hitems : ∀ v ∈ vs, Prints l v := fun v hmem =>
      ih v hmem fun n hn => hv n ((num_mem_arr n vs).mpr ⟨v, hmem, hn⟩)
    have hclose : Lexes (']' :: cs) (.closeArr :: ts) := .mark .closeArr id h
    cases vs with
    | nil =>
      rw [chars, tokens]
      exact .mark .openArr id hclose
    | cons v vs =>
      have hend : Ends (l.newline depth ++ ']' :: cs) :=
        Ends.blanks (hl.newline depth) (by simp [Ends])
      have hrest := lexes_itemChars hl (depth + 1) vs (fun v hv => hitems v (by simp [hv])) hend
        (hclose.blanks (hl.newline depth))
      have hfirst := hitems v (by simp) (depth + 1) _ _ (ends_itemChars (depth + 1) vs hend) hrest
      have harr := Lexes.mark .openArr id (hfirst.blanks (hl.newline (depth + 1)))
      simpa [chars, tokens] using harr
  | hobj fs ih =>
    intro depth cs ts hends h
    have hvalues : ∀ f ∈ fs, Prints l f.2 := fun f hmem =>
      ih f hmem fun n hn => hv n ((num_mem_obj n fs).mpr ⟨f, hmem, hn⟩)
    have hclose : Lexes ('\x7d' :: cs) (.closeObj :: ts) := .mark .closeObj id h
    rcases fs with _ | ⟨⟨k, v⟩, fs⟩
    · rw [chars, tokens]
      exact .mark .openObj id hclose
    · have hend : Ends (l.newline depth ++ '\x7d' :: cs) :=
        Ends.blanks (hl.newline depth) (by simp [Ends])
      have hrest := lexes_fieldChars hl (depth + 1) fs (fun f hf => hvalues f (by simp [hf])) hend
        (hclose.blanks (hl.newline depth))
      have hfirst := hvalues (k, v) (by simp) (depth + 1) _ _ (ends_fieldChars (depth + 1) fs hend)
        hrest
      have hobj := Lexes.mark .openObj id
        ((lexes_key hl k hfirst).blanks (hl.newline (depth + 1)))
      simpa [chars, tokens] using hobj

end Layout

/-- The indented text of a value is one of its texts. -/
theorem spelled_pretty (v : Json) (hv : ∀ n, .num n ∈ v.tokens → n.ReadsBack) :
    Spelled v.pretty.toList v := by
  have h := prints Layout.isBlank_indented v hv 0 [] [] (by simp [Ends]) .nil
  rw [List.append_nil, List.append_nil] at h
  rw [pretty, String.toList_ofList]
  exact h

end Json
end CallGraph
