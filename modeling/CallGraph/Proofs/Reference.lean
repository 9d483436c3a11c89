import CallGraph.Language
import CallGraph.Proofs.Call

namespace CallGraph.Reference

theorem eq_dot_of_has (c : Char) (hc : SymbolClass.dot.has c = true) : c = '.' := by
  have hn : c.toNat = '.'.toNat := by
    simpa [SymbolClass.has, SymbolClass.hasCode, Symbol.code] using hc
  exact Char.toNat_inj.mp hn

/-- No symbol of another class is the dot. -/
theorem ne_dot (k : SymbolClass) (hk : k = .word ∨ k = .space) (c : Char)
    (hc : k.has c = true) : (c != '.') = true := by
  rw [bne_iff_ne]
  intro h
  subst h
  rcases hk with rfl | rfl <;> exact absurd hc (by decide)

theorem alphanum_of_word (c : Char) (hc : SymbolClass.word.has c = true) :
    c.isAlphanum = true ∨ c = '_' := by
  simp only [SymbolClass.has, SymbolClass.hasCode, SymbolClass.isLetter, SymbolClass.isDigit,
    Symbol.code, Bool.or_eq_true, Bool.and_eq_true, decide_eq_true_eq, beq_iff_eq] at hc
  change (_ ∨ 48 ≤ c.toNat ∧ c.toNat ≤ 57) ∨ c.toNat = 95 at hc
  by_cases hu : c.toNat = 95
  · exact .inr (Char.toNat_inj.mp hu)
  · left
    change ((decide (65 ≤ c.val ∧ c.val ≤ 90) || (decide (97 ≤ c.val) && decide (c.val ≤ 122))) ||
      (decide (48 ≤ c.val) && decide (c.val ≤ 57))) = true
    simp only [Bool.or_eq_true, Bool.and_eq_true, decide_eq_true_eq, UInt32.le_iff_toNat_le]
    change (65 ≤ c.toNat ∧ c.toNat ≤ 90 ∨ 97 ≤ c.toNat ∧ c.toNat ≤ 122) ∨
      48 ≤ c.toNat ∧ c.toNat ≤ 57
    omega

theorem isBlank_of_space (c : Char) (hc : SymbolClass.space.has c = true) :
    Text.isBlank c = true := by
  simp only [SymbolClass.has, SymbolClass.hasCode, Symbol.code, Bool.or_eq_true,
    Bool.and_eq_true, decide_eq_true_eq, beq_iff_eq] at hc
  simp only [Text.isBlank, Bool.or_eq_true, Bool.and_eq_true, decide_eq_true_eq, beq_iff_eq]
  omega

theorem not_isBlank_of_word (c : Char) (hc : SymbolClass.word.has c = true) :
    Text.isBlank c = false := by
  simp only [SymbolClass.has, SymbolClass.hasCode, SymbolClass.isLetter, SymbolClass.isDigit,
    Symbol.code, Bool.or_eq_true, Bool.and_eq_true, decide_eq_true_eq, beq_iff_eq] at hc
  simp only [Text.isBlank, Bool.or_eq_false_iff, Bool.and_eq_false_iff, decide_eq_false_iff_not,
    beq_eq_false_iff_ne]
  omega

theorem trimEnd_append (w s : List Char) (hne : w ≠ [])
    (hw : ∀ c ∈ w, SymbolClass.word.has c = true) (hs : ∀ c ∈ s, SymbolClass.space.has c = true) :
    Text.trimEnd (w ++ s) = w := by
  have hblank : ∀ c ∈ s.reverse, Text.isBlank c = true := by
    intro c hc
    exact isBlank_of_space c (hs c (List.mem_reverse.mp hc))
  have hkeep : w.reverse.dropWhile Text.isBlank = w.reverse := by
    cases hr : w.reverse with
    | nil => exact absurd (List.reverse_eq_nil_iff.mp hr) hne
    | cons c cs =>
      have hc : c ∈ w := List.mem_reverse.mp (by simp [hr])
      simp [not_isBlank_of_word c (hw c hc)]
  rw [Text.trimEnd, List.reverse_append, List.dropWhile_append_of_pos hblank, hkeep,
    List.reverse_reverse]

/-- The qualifier of a call is its first name. -/
theorem qualifier_call (l : Language) (name call : List Char) (h : l.IsCall name call) :
    qualifier call = name := by
  cases h with
  | @intro gap gap' method blank dot paren hn hg hd hg' hm hb hp =>
    obtain rfl := eq_dot_of_has dot hd
    have hname : ∀ c ∈ name, (c != '.') = true := by
      intro c hc
      exact ne_dot .word (.inl rfl) c (hn.2.1 c hc)
    have hgap : ∀ c ∈ gap, (c != '.') = true := by
      intro c hc
      exact ne_dot .space (.inr rfl) c (hg.1 c hc)
    have hbefore : ∀ rest, Text.before '.' (name ++ (gap ++ '.' :: rest)) = name ++ gap := by
      intro rest
      rw [Text.before, List.takeWhile_append_of_pos hname, List.takeWhile_append_of_pos hgap]
      simp
    rw [qualifier, hbefore, trimEnd_append name gap hn.1 hn.2.1 hg.1]

theorem exists_of_forall₂ {β γ : Type} {R : β → γ → Prop} {xs : List β} {ys : List γ}
    (h : List.Forall₂ R xs ys) (y : γ) (hy : y ∈ ys) : ∃ x, R x y := by
  induction h with
  | nil => cases hy
  | @cons x z xs ys hr _ ih =>
    obtain rfl | hy := List.mem_cons.mp hy
    · exact ⟨x, hr⟩
    · exact ih hy

/-- The extracted names are the names of the calls in a text, one for each place where a call
begins, from left to right. A place has one call only, and calls do not overlap. -/
theorem extract_eq_calls (l : Language) (text : String) :
    (∃ places : List Nat, places.Pairwise (· < ·) ∧
      (∀ i, i ∈ places ↔ ∃ name call, l.CallAt text.toList i name call) ∧
      List.Forall₂ (fun i entry => ∃ call, l.CallAt text.toList i entry.toList call)
        places (extract l text)) ∧
    (∀ entry ∈ extract l text, entry ≠ "" ∧
      ∀ c ∈ entry.toList, c.isAlphanum = true ∨ c = '_') ∧
    (∀ i name name' call call', l.CallAt text.toList i name call →
      l.CallAt text.toList i name' call' → name = name' ∧ call = call') ∧
    (∀ i j name name' call call', l.CallAt text.toList i name call →
      l.CallAt text.toList j name' call' → i < j → i + call.length ≤ j) := by
  obtain ⟨places, hp, hi, hf⟩ := l.callsFrom_findAll text.toList
  have hnames : List.Forall₂ (fun i entry => ∃ call, l.CallAt text.toList i entry.toList call)
      places (extract l text) := by
    rw [extract, List.forall₂_map_right_iff]
    refine hf.imp ?_
    intro i call hc
    obtain ⟨name, hc⟩ := hc
    rw [String.toList_ofList, qualifier_call l name call hc.2.1]
    exact ⟨call, hc⟩
  refine ⟨⟨places, hp, fun i => by simpa using hi i, hnames⟩, ?_,
    l.callAt_unique text.toList, l.callAt_apart text.toList⟩
  intro entry he
  obtain ⟨i, call, -, hc, -⟩ := exists_of_forall₂ hnames entry he
  cases hc with
  | intro hn =>
    refine ⟨?_, fun c hc => alphanum_of_word c (hn.2.1 c hc)⟩
    intro h0
    subst h0
    exact hn.1 rfl

end CallGraph.Reference
