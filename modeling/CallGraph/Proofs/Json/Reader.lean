import CallGraph.Json.Parser
import CallGraph.Proofs.Json.Grammar
import Mathlib.Tactic.IntervalCases

namespace CallGraph.Json

theorem hexValue?_of_isHexDigit {c : Char} {d : Nat} (h : IsHexDigit c d) : hexValue? c = some d := by
  obtain ⟨hd, rfl | rfl⟩ := h
  all_goals
    interval_cases d <;> decide

theorem simpleEscape?_of_mem {e c : Char} (h : (e, c) ∈ shortEscapes) :
    e ≠ 'u' ∧ simpleEscape? e = some c := by
  simp only [shortEscapes, List.mem_cons, Prod.mk.injEq, List.not_mem_nil, or_false] at h
  rcases h with h | h | h | h | h | h | h | h
  all_goals
    obtain ⟨rfl, rfl⟩ := h
    decide

theorem isWordChar_of_isDigit {c : Char} (h : c.isDigit = true) : isWordChar c = true := by
  have hc : c.isAlphanum = true := by
    change (c.isAlpha || c.isDigit) = true
    rw [h, Bool.or_true]
  rw [isWordChar, hc]
  rfl

theorem IsDigits.isWordChar {cs : List Char} (h : IsDigits cs) : ∀ c ∈ cs, isWordChar c = true :=
  fun c hc => isWordChar_of_isDigit (h.2 c hc)

theorem IsNumeral.isWordChar {cs : List Char} (h : IsNumeral cs) :
    ∀ c ∈ cs, Json.isWordChar c = true := by
  obtain ⟨hsign, hwhole, -, hplaces, hpower⟩ := h
  intro c hc
  simp only [List.mem_append] at hc
  rcases hc with hc | hc | hc | hc
  · obtain rfl | rfl := hsign
    · simp at hc
    · obtain rfl := List.mem_singleton.mp hc
      decide
  · exact hwhole.isWordChar c hc
  · obtain rfl | ⟨ds, hds, rfl⟩ := hplaces
    · simp at hc
    · obtain rfl | hc := List.mem_cons.mp hc
      · decide
      · exact hds.isWordChar c hc
  · obtain rfl | ⟨e, s, ds, he, hs, hds, rfl⟩ := hpower
    · simp at hc
    · simp only [List.mem_cons, List.mem_append] at hc
      rcases hc with rfl | hc | hc
      · obtain rfl | rfl := he <;> decide
      · obtain rfl | rfl | rfl := hs
        · simp at hc
        · obtain rfl := List.mem_singleton.mp hc
          decide
        · obtain rfl := List.mem_singleton.mp hc
          decide
      · exact hds.isWordChar c hc

/-- A numeral starts with a sign or a digit. -/
theorem IsNumeral.head {cs : List Char} (h : IsNumeral cs) :
    ∃ c r, cs = c :: r ∧ (c = '-' ∨ c.isDigit = true) := by
  obtain ⟨hsign, hwhole, -, -, -⟩ := h
  obtain rfl | rfl := hsign
  · obtain ⟨c, r, rfl⟩ := List.exists_cons_of_ne_nil hwhole.1
    exact ⟨c, _, rfl, .inr (hwhole.2 c (by simp))⟩
  · exact ⟨'-', _, rfl, .inl rfl⟩

theorem IsNumeral.ofWord? {cs : List Char} (h : IsNumeral cs) :
    Token.ofWord? cs = (Number.ofChars? cs).map .num := by
  obtain ⟨c, r, rfl, hc⟩ := h.head
  have hne : ∀ x ∈ ['n', 't', 'f'], c ≠ x := by
    rintro x hx rfl
    simp only [List.mem_cons, List.not_mem_nil, or_false] at hx
    rcases hx with rfl | rfl | rfl <;> simp at hc
  simp [Token.ofWord?, hne]

theorem not_isWordChar_of_isBlank {c : Char} (h : IsBlank c) : isWordChar c = false := by
  rcases h with rfl | rfl | rfl | rfl <;> decide

theorem Ends.not_isWordChar {c : Char} {cs : List Char} (h : Ends (c :: cs)) :
    isWordChar c = false := by
  obtain hc | hc := h c rfl
  · exact not_isWordChar_of_isBlank hc
  · simp only [List.mem_cons, List.not_mem_nil, or_false] at hc
    rcases hc with rfl | rfl | rfl | rfl | rfl | rfl <;> decide

namespace Lexer

/-- The tokens of the rest of a text. -/
def run (s : Lexer) (cs : List Char) : Option (List Token) := (cs.foldlM step s).bind finish?

theorem run_append {s s' : Lexer} {w : List Char} (h : w.foldlM step s = some s') (cs : List Char) :
    s.run (w ++ cs) = s'.run cs := by
  rw [run, List.foldlM_append, h]
  rfl

theorem start_of_isWordChar (done : List Token) {c : Char} (h : isWordChar c = true) :
    start done c = some ⟨done, .word [c]⟩ := by
  have hblank : ¬ IsBlank c := by
    intro hb
    rw [not_isWordChar_of_isBlank hb] at h
    contradiction
  have hquote : c ≠ '"' := by
    rintro rfl
    contradiction
  unfold IsBlank at hblank
  rw [start, if_neg hblank, if_neg hquote, if_pos h]

theorem foldlM_code (done : List Token) (read : List Char) (high : Option Nat) {ds : List Char}
    {n : Nat} (h : IsCode ds n) :
    ('\\' :: 'u' :: ds).foldlM step ⟨done, .text read high⟩ = addUnit done read high n := by
  obtain ⟨a, b, c, d, p, q, r, s, rfl, ha, hb, hc, hd, rfl⟩ := h
  simp [step, hexValue?_of_isHexDigit ha, hexValue?_of_isHexDigit hb, hexValue?_of_isHexDigit hc,
    hexValue?_of_isHexDigit hd]

theorem foldlM_char (done : List Token) (read : List Char) {w : List Char} {c : Char}
    (h : CharSpelled w c) :
    w.foldlM step ⟨done, .text read none⟩ = some ⟨done, .text (c :: read) none⟩ := by
  cases h with
  | plain printable noQuote noBackslash =>
    have hc : ¬ c.toNat < 0x20 := by omega
    simp [step, noBackslash, noQuote, hc]
  | short listed =>
    obtain ⟨hu, he⟩ := simpleEscape?_of_mem listed
    simp [step, hu, he]
  | @code ds n digits single =>
    have hhigh : ¬ (0xD800 ≤ n ∧ n < 0xDC00) := by omega
    have hlow : ¬ (0xDC00 ≤ n ∧ n < 0xE000) := by omega
    rw [foldlM_code done read none digits]
    simp [addUnit, hhigh, hlow]
  | @surrogates ds ds' high low first second isHigh isLow =>
    have hhigh : addUnit done read none high = some ⟨done, .text read (some high)⟩ := by
      simp [addUnit, isHigh]
    rw [List.foldlM_append, foldlM_code done read none first, hhigh]
    change ('\\' :: 'u' :: ds').foldlM step ⟨done, .text read (some high)⟩ = _
    rw [foldlM_code done read (some high) second]
    simp [addUnit, isLow]

theorem foldlM_text (done : List Token) (read : List Char) {cs s : List Char}
    (h : TextSpelled cs s) :
    cs.foldlM step ⟨done, .text read none⟩ = some ⟨done, .text (s.reverse ++ read) none⟩ := by
  induction h generalizing read with
  | nil => rfl
  | cons char rest ih =>
    rw [List.foldlM_append, foldlM_char done read char]
    change List.foldlM step _ _ = _
    rw [ih, List.reverse_cons, List.append_assoc]
    rfl

theorem foldlM_word (done : List Token) (read : List Char) {w : List Char}
    (h : ∀ c ∈ w, isWordChar c = true) :
    w.foldlM step ⟨done, .word read⟩ = some ⟨done, .word (w.reverse ++ read)⟩ := by
  induction w generalizing read with
  | nil => rfl
  | cons c w ih =>
    have hc : isWordChar c = true := h c (by simp)
    have hstep : step ⟨done, .word read⟩ c = some ⟨done, .word (c :: read)⟩ := if_pos hc
    rw [List.foldlM_cons, hstep]
    change List.foldlM step _ _ = _
    rw [ih (c :: read) fun x hx => h x (by simp [hx]), List.reverse_cons, List.append_assoc]
    rfl

/-- What follows a word does not see whether the word has been taken. -/
theorem run_word (done : List Token) {read : List Char} {t : Token}
    (ht : Token.ofWord? read.reverse = some t) {cs : List Char} (h : Ends cs) :
    run ⟨done, .word read⟩ cs = run ⟨t :: done, .between⟩ cs := by
  cases cs with
  | nil =>
    change (Token.ofWord? read.reverse).map _ = _
    rw [ht]
    rfl
  | cons c cs =>
    have hstep : step ⟨done, .word read⟩ c = step ⟨t :: done, .between⟩ c := by
      simp [step, h.not_isWordChar, ht]
    rw [run, run, List.foldlM_cons, List.foldlM_cons, hstep]

theorem run_isWord (done : List Token) {w : List Char} {t : Token} (hne : w ≠ [])
    (hall : w.all isWordChar = true) (ht : Token.ofWord? w = some t) {cs : List Char}
    (h : Ends cs) : run ⟨done, .between⟩ (w ++ cs) = run ⟨t :: done, .between⟩ cs := by
  have hw := List.all_eq_true.mp hall
  obtain ⟨c, w, rfl⟩ := List.exists_cons_of_ne_nil hne
  have hfold : (c :: w).foldlM step ⟨done, .between⟩ = some ⟨done, .word (w.reverse ++ [c])⟩ := by
    rw [List.foldlM_cons]
    change (start done c).bind _ = _
    rw [start_of_isWordChar done (hw c (by simp))]
    exact foldlM_word done [c] fun x hx => hw x (by simp [hx])
  rw [run_append hfold, run_word done (by simpa using ht) h]

theorem run_token (done : List Token) {w cs : List Char} {t : Token} (spelled : t.Spelled w)
    (ends : t.IsWord → Ends cs) :
    run ⟨done, .between⟩ (w ++ cs) = run ⟨t :: done, .between⟩ cs := by
  cases spelled with
  | openArr => rfl
  | closeArr => rfl
  | openObj => rfl
  | closeObj => rfl
  | colon => rfl
  | comma => rfl
  | null => exact run_isWord done (by simp) rfl rfl (ends trivial)
  | yes => exact run_isWord done (by simp) rfl rfl (ends trivial)
  | no => exact run_isWord done (by simp) rfl rfl (ends trivial)
  | num numeral value =>
    obtain ⟨c, r, rfl, -⟩ := numeral.head
    refine run_isWord done (by simp) (List.all_eq_true.mpr numeral.isWordChar) ?_ (ends trivial)
    rw [numeral.ofWord?, value]
    rfl
  | @str text s spelled =>
    have hfold : ('"' :: (text ++ ['"'])).foldlM step ⟨done, .between⟩ =
        some ⟨.str (.ofList s) :: done, .between⟩ := by
      change (text ++ ['"']).foldlM step ⟨done, .text [] none⟩ = _
      rw [List.foldlM_append, foldlM_text done [] spelled, List.append_nil]
      simp [step]
    exact run_append hfold cs

theorem run_of_lexes (done : List Token) {cs : List Char} {ts : List Token} (h : Lexes cs ts) :
    run ⟨done, .between⟩ cs = some (done.reverse ++ ts) := by
  induction h generalizing done with
  | nil => simp [run, finish?]
  | @blank c cs ts isBlank rest ih =>
    have hstart : start done c = some ⟨done, .between⟩ := if_pos isBlank
    have hfold : [c].foldlM step ⟨done, .between⟩ = some ⟨done, .between⟩ := by
      rw [List.foldlM_cons]
      change (start done c).bind _ = _
      rw [hstart]
      rfl
    have hrun := run_append hfold cs
    rw [List.singleton_append] at hrun
    rw [hrun, ih]
  | @token w cs t ts spelled ends rest ih =>
    rw [run_token done spelled ends, ih, List.reverse_cons, List.append_assoc]
    rfl

end Lexer

theorem tokens?_of_lexes {cs : List Char} {ts : List Token} (h : Lexes cs ts) :
    tokens? cs = some ts :=
  Lexer.run_of_lexes [] h

theorem tokens_head (v : Json) : ∃ t ts, v.tokens = t :: ts ∧ t ≠ .closeArr := by
  cases v with
  | arr vs => cases vs <;> exact ⟨_, _, by rw [tokens], by simp⟩
  | obj fs => rcases fs with _ | ⟨⟨k, v⟩, fs⟩ <;> exact ⟨_, _, by rw [tokens], by simp⟩
  | _ => exact ⟨_, _, by rw [tokens], by simp⟩

namespace Parser

/-- The value is read from wherever a value may come. -/
def Reads (v : Json) : Prop := ∀ stack ts,
  (v.tokens ++ ts).foldlM step ⟨stack, .value⟩ = ts.foldlM step ⟨stack, .after v⟩

theorem foldlM_item {v : Json} (hv : Reads v) (stack : List Frame) (ts : List Token) :
    (v.tokens ++ ts).foldlM step ⟨stack, .item⟩ = ts.foldlM step ⟨stack, .after v⟩ := by
  rw [← hv stack ts]
  obtain ⟨t, rest, heq, ht⟩ := tokens_head v
  have hstep : step ⟨stack, .item⟩ t = step ⟨stack, .value⟩ t := by
    cases t <;> first | rfl | contradiction
  rw [heq, List.cons_append, List.foldlM_cons, List.foldlM_cons, hstep]

theorem foldlM_items (vs : List Json) (hvs : ∀ v ∈ vs, Reads v) (items : List Json) (v : Json)
    (stack : List Frame) (ts : List Token) :
    (itemTokens vs ++ .closeArr :: ts).foldlM step ⟨.arr items :: stack, .after v⟩ =
      ts.foldlM step ⟨stack, .after (.arr (items.reverse ++ v :: vs))⟩ := by
  induction vs generalizing items v with
  | nil =>
    rw [itemTokens]
    change ts.foldlM step ⟨stack, .after (.arr (v :: items).reverse)⟩ = _
    rw [List.reverse_cons]
  | cons w vs ih =>
    have hw := hvs w (by simp)
    have hrest := ih (fun v hv => hvs v (by simp [hv])) (v :: items) w
    rw [itemTokens, List.cons_append, List.append_assoc, List.foldlM_cons]
    change (w.tokens ++ _).foldlM step ⟨.arr (v :: items) :: stack, .value⟩ = _
    rw [hw, hrest, List.reverse_cons, List.append_assoc]
    rfl

theorem foldlM_fields (fs : List (String × Json)) (hfs : ∀ f ∈ fs, Reads f.2)
    (fields : List (String × Json)) (k : String) (v : Json) (stack : List Frame) (ts : List Token) :
    (fieldTokens fs ++ .closeObj :: ts).foldlM step ⟨.obj fields k :: stack, .after v⟩ =
      ts.foldlM step ⟨stack, .after (.obj (fields.reverse ++ (k, v) :: fs))⟩ := by
  induction fs generalizing fields k v with
  | nil =>
    rw [fieldTokens]
    change ts.foldlM step ⟨stack, .after (.obj ((k, v) :: fields).reverse)⟩ = _
    rw [List.reverse_cons]
  | cons f fs ih =>
    obtain ⟨k', w⟩ := f
    have hw := hfs (k', w) (by simp)
    have hrest := ih (fun f hf => hfs f (by simp [hf])) ((k, v) :: fields) k' w
    rw [fieldTokens, List.cons_append, List.cons_append, List.cons_append, List.append_assoc]
    change (w.tokens ++ _).foldlM step ⟨.obj ((k, v) :: fields) k' :: stack, .value⟩ = _
    rw [hw, hrest, List.reverse_cons, List.append_assoc]
    rfl

theorem reads (v : Json) : Reads v := by
  induction v using Json.induction with
  | hnull => intro stack ts; rfl
  | hbool b => intro stack ts; rfl
  | hnum n => intro stack ts; rfl
  | hstr s => intro stack ts; rfl
  | harr vs ih =>
    intro stack ts
    cases vs with
    | nil => rfl
    | cons v vs =>
      rw [tokens, List.cons_append, List.append_assoc, List.append_assoc, List.foldlM_cons]
      change (v.tokens ++ _).foldlM step ⟨.arr [] :: stack, .item⟩ = _
      rw [foldlM_item (ih v (by simp))]
      exact foldlM_items vs (fun v hv => ih v (by simp [hv])) [] v stack ts
  | hobj fs ih =>
    intro stack ts
    rcases fs with _ | ⟨⟨k, v⟩, fs⟩
    · rfl
    · rw [tokens, List.cons_append, List.cons_append, List.cons_append, List.append_assoc,
        List.append_assoc]
      change (v.tokens ++ _).foldlM step ⟨.obj [] k :: stack, .value⟩ = _
      rw [ih (k, v) (by simp)]
      exact foldlM_fields fs (fun f hf => ih f (by simp [hf])) [] k v stack ts

end Parser

theorem ofTokens?_tokens (v : Json) : ofTokens? v.tokens = some v := by
  have h := Parser.reads v [] []
  rw [List.append_nil] at h
  rw [ofTokens?, h]
  rfl

/-- Every text of a value is read as that value. -/
theorem parse?_of_spelled {s : String} {v : Json} (h : Spelled s.toList v) : parse? s = some v := by
  rw [parse?, tokens?_of_lexes h]
  exact ofTokens?_tokens v

end CallGraph.Json
