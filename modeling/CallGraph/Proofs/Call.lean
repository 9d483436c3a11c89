import CallGraph.Language
import CallGraph.Proofs.Pattern
import Mathlib.Data.List.Forall2
import Mathlib.Data.List.Sort
import Mathlib.Tactic.Common

namespace CallGraph.Language

variable {α : Type} [Symbol α]

/-- A name is made of word symbols; in PL/SQL no digit stands at its front. -/
def IsName (l : Language) (w : List α) : Prop :=
  w ≠ [] ∧ (∀ x ∈ w, SymbolClass.word.has x = true) ∧
    (l = .plsql → ∀ x ∈ w.head?, SymbolClass.isDigit (Symbol.code x) = false)

/-- What may stand on either side of the dot: white space, in PL/SQL nothing. -/
def IsGap (l : Language) (s : List α) : Prop :=
  (∀ x ∈ s, SymbolClass.space.has x = true) ∧ (l = .plsql → s = [])

/-- A call through a dotted name, from the name up to the parenthesis. -/
inductive IsCall (l : Language) (name : List α) : List α → Prop
  | intro {gap gap' method blank : List α} {dot paren : α} (hname : l.IsName name)
      (hgap : l.IsGap gap) (hdot : SymbolClass.dot.has dot = true) (hgap' : l.IsGap gap')
      (hmethod : l.IsName method) (hblank : ∀ x ∈ blank, SymbolClass.space.has x = true)
      (hparen : SymbolClass.openParen.has paren = true) :
      IsCall l name (name ++ (gap ++ dot :: (gap' ++ (method ++ (blank ++ [paren])))))

/-- A call stands at a place of a text, and no word symbol just before it. -/
def CallAt (l : Language) (text : List α) (i : Nat) (name call : List α) : Prop :=
  Pattern.isWord (text.take i).getLast? = false ∧ l.IsCall name call ∧ call <+: text.drop i

theorem isName_cons_python (x : α) (w : List α) : IsName .python (x :: w) ↔
    SymbolClass.word.has x = true ∧ ∀ y ∈ w, SymbolClass.word.has y = true := by
  simp [IsName]

theorem isName_cons_plsql (x : α) (w : List α) : IsName .plsql (x :: w) ↔
    SymbolClass.nameStart.has x = true ∧ ∀ y ∈ w, SymbolClass.word.has y = true := by
  rw [SymbolClass.nameStart_iff]
  simp only [IsName, ne_eq, reduceCtorEq, not_false_eq_true, List.mem_cons, forall_eq_or_imp,
    List.head?_cons, Option.mem_some_iff, forall_eq', true_and, forall_const]
  tauto

theorem fits_call (l : Language) (call : List α) :
    Pattern.Fits l.call.tail call ↔ ∃ name, l.IsCall name call := by
  cases l with
  | python =>
    constructor
    · intro h
      obtain ⟨x, _, rfl, hx, w, _, rfl, hw, gap, _, rfl, hg, dot, _, rfl, hd, gap', _, rfl, hg',
        y, _, rfl, hy, v, _, rfl, hv, blank, _, rfl, hb, paren, _, rfl, hp, rfl⟩ := h
      exact ⟨x :: w, .intro ((isName_cons_python x w).mpr ⟨hx, hw⟩) ⟨hg, nofun⟩ hd ⟨hg', nofun⟩
        ((isName_cons_python y v).mpr ⟨hy, hv⟩) hb hp⟩
    · intro h
      obtain ⟨name, hc⟩ := h
      cases hc with
      | @intro gap gap' method blank dot paren hn hg hd hg' hm hb hp =>
        obtain ⟨x, w, rfl⟩ := List.exists_cons_of_ne_nil hn.1
        obtain ⟨y, v, rfl⟩ := List.exists_cons_of_ne_nil hm.1
        rw [isName_cons_python] at hn hm
        exact ⟨x, _, rfl, hn.1, w, _, rfl, hn.2, gap, _, rfl, hg.1, dot, _, rfl, hd, gap', _, rfl,
          hg'.1, y, _, rfl, hm.1, v, _, rfl, hm.2, blank, _, rfl, hb, paren, _, rfl, hp, rfl⟩
  | plsql =>
    constructor
    · intro h
      obtain ⟨x, _, rfl, hx, w, _, rfl, hw, dot, _, rfl, hd, y, _, rfl, hy, v, _, rfl, hv,
        blank, _, rfl, hb, paren, _, rfl, hp, rfl⟩ := h
      have hg : IsGap .plsql ([] : List α) := ⟨by simp, fun _ => rfl⟩
      exact ⟨x :: w, .intro ((isName_cons_plsql x w).mpr ⟨hx, hw⟩) hg hd hg
        ((isName_cons_plsql y v).mpr ⟨hy, hv⟩) hb hp⟩
    · intro h
      obtain ⟨name, hc⟩ := h
      cases hc with
      | @intro gap gap' method blank dot paren hn hg hd hg' hm hb hp =>
        obtain ⟨x, w, rfl⟩ := List.exists_cons_of_ne_nil hn.1
        obtain ⟨y, v, rfl⟩ := List.exists_cons_of_ne_nil hm.1
        obtain rfl := hg.2 rfl
        obtain rfl := hg'.2 rfl
        rw [isName_cons_plsql] at hn hm
        exact ⟨x, _, rfl, hn.1, w, _, rfl, hn.2, dot, _, rfl, hd, y, _, rfl, hm.1, v, _, rfl,
          hm.2, blank, _, rfl, hb, paren, _, rfl, hp, rfl⟩

theorem IsCall.length_pos {l : Language} {name call : List α} (h : l.IsCall name call) :
    0 < call.length := by
  cases h
  simp only [List.length_append, List.length_cons]
  omega

theorem IsCall.isWord_head {l : Language} {name call : List α} (h : l.IsCall name call)
    (rest : List α) : Pattern.isWord (call ++ rest).head? = true := by
  cases h with
  | intro hn =>
    obtain ⟨x, w, rfl⟩ := List.exists_cons_of_ne_nil hn.1
    exact hn.2.1 x (by simp)

omit [Symbol α] in
/-- Two ways to split a text behind a run of symbols are the same. -/
theorem run_unique (p : α → Bool) (w w' r r' : List α) (hw : ∀ x ∈ w, p x = true)
    (hw' : ∀ x ∈ w', p x = true) (hr : ∀ x ∈ r.head?, p x = false)
    (hr' : ∀ x ∈ r'.head?, p x = false) (he : w ++ r = w' ++ r') : w = w' ∧ r = r' := by
  have hstop : ∀ ys : List α, (∀ x ∈ ys.head?, p x = false) → ys.takeWhile p = [] := by
    intro ys hy
    cases ys with
    | nil => rfl
    | cons y ys => simp [hy y (by simp)]
  have hrun := congrArg (List.takeWhile p) he
  rw [List.takeWhile_append_of_pos hw, List.takeWhile_append_of_pos hw', hstop r hr,
    hstop r' hr', List.append_nil, List.append_nil] at hrun
  subst hrun
  exact ⟨rfl, List.append_cancel_left he⟩

theorem not_word_of_space (x : α) (hx : SymbolClass.space.has x = true) :
    SymbolClass.word.has x = false :=
  SymbolClass.has_excl .space .word nofun nofun nofun x hx

theorem not_space_of_word (x : α) (hx : SymbolClass.word.has x = true) :
    SymbolClass.space.has x = false :=
  SymbolClass.has_excl .word .space nofun nofun nofun x hx

theorem not_dot_of_word (x : α) (hx : SymbolClass.word.has x = true) :
    SymbolClass.dot.has x = false :=
  SymbolClass.has_excl .word .dot nofun nofun nofun x hx

theorem not_dot_of_space (x : α) (hx : SymbolClass.space.has x = true) :
    SymbolClass.dot.has x = false :=
  SymbolClass.has_excl .space .dot nofun nofun nofun x hx

/-- Neither a word symbol nor white space. -/
def IsMark (x : α) : Prop := SymbolClass.word.has x = false ∧ SymbolClass.space.has x = false

theorem isMark_of_dot (x : α) (hx : SymbolClass.dot.has x = true) : IsMark x :=
  ⟨SymbolClass.has_excl .dot .word nofun nofun nofun x hx,
    SymbolClass.has_excl .dot .space nofun nofun nofun x hx⟩

theorem isMark_of_openParen (x : α) (hx : SymbolClass.openParen.has x = true) : IsMark x :=
  ⟨SymbolClass.has_excl .openParen .word nofun nofun nofun x hx,
    SymbolClass.has_excl .openParen .space nofun nofun nofun x hx⟩

theorem not_word_head (s r : List α) (x : α) (hs : ∀ y ∈ s, SymbolClass.space.has y = true)
    (hx : IsMark x) : ∀ y ∈ (s ++ x :: r).head?, SymbolClass.word.has y = false := by
  intro y hy
  cases s with
  | nil =>
    obtain rfl : x = y := by simpa using hy
    exact hx.1
  | cons z s =>
    obtain rfl : z = y := by simpa using hy
    exact not_word_of_space z (hs z (by simp))

/-- A name, white space and a mark can be read off a text in one way only. -/
theorem front_unique (w w' s s' r r' : List α) (x x' : α)
    (hw : ∀ y ∈ w, SymbolClass.word.has y = true) (hw' : ∀ y ∈ w', SymbolClass.word.has y = true)
    (hs : ∀ y ∈ s, SymbolClass.space.has y = true) (hs' : ∀ y ∈ s', SymbolClass.space.has y = true)
    (hx : IsMark x) (hx' : IsMark x') (he : w ++ (s ++ x :: r) = w' ++ (s' ++ x' :: r')) :
    w = w' ∧ s = s' ∧ x = x' ∧ r = r' := by
  obtain ⟨rfl, h1⟩ := run_unique _ w w' _ _ hw hw' (not_word_head s r x hs hx)
    (not_word_head s' r' x' hs' hx') he
  obtain ⟨rfl, h2⟩ := run_unique _ s s' _ _ hs hs' (by simpa using hx.2) (by simpa using hx'.2) h1
  exact ⟨rfl, rfl, (List.cons.inj h2).1, (List.cons.inj h2).2⟩

theorem isCall_unique (l l' : Language) (name name' call call' rest rest' : List α)
    (h : l.IsCall name call) (h' : l'.IsCall name' call')
    (he : call ++ rest = call' ++ rest') : name = name' ∧ call = call' := by
  cases h with
  | @intro g₁ g₂ m s dot paren hn hg₁ hd hg₂ hm hs hp =>
  cases h' with
  | @intro g₁' g₂' m' s' dot' paren' hn' hg₁' hd' hg₂' hm' hs' hp' =>
    simp only [List.append_assoc, List.cons_append, List.nil_append] at he
    obtain ⟨rfl, rfl, rfl, h1⟩ := front_unique _ _ _ _ _ _ _ _ hn.2.1 hn'.2.1 hg₁.1 hg₁'.1
      (isMark_of_dot dot hd) (isMark_of_dot dot' hd') he
    have hmethod : ∀ (l : Language) (m r : List α), l.IsName m →
        ∀ y ∈ (m ++ r).head?, SymbolClass.space.has y = false := by
      intro l m r hm y hy
      obtain ⟨z, v, rfl⟩ := List.exists_cons_of_ne_nil hm.1
      obtain rfl : z = y := by simpa using hy
      exact not_space_of_word z (hm.2.1 z (by simp))
    obtain ⟨rfl, h2⟩ := run_unique _ g₂ g₂' _ _ hg₂.1 hg₂'.1 (hmethod l m _ hm)
      (hmethod l' m' _ hm') h1
    obtain ⟨rfl, rfl, rfl, -⟩ := front_unique _ _ _ _ _ _ _ _ hm.2.1 hm'.2.1 hs hs'
      (isMark_of_openParen paren hp) (isMark_of_openParen paren' hp') h2
    exact ⟨rfl, rfl⟩

theorem callAt_unique (l : Language) (text : List α) (i : Nat) (name name' call call' : List α)
    (h : CallAt l text i name call) (h' : CallAt l text i name' call') :
    name = name' ∧ call = call' := by
  obtain ⟨rest, hr⟩ := h.2.2
  obtain ⟨rest', hr'⟩ := h'.2.2
  exact isCall_unique l l _ _ _ _ rest rest' h.2.1 h'.2.1 (hr.trans hr'.symm)

omit [Symbol α] in
theorem getElem?_part (a b c : List α) (i : Nat) (h1 : a.length ≤ i)
    (h2 : i < a.length + b.length) : ∃ x ∈ b, (a ++ (b ++ c))[i]? = some x := by
  have hi : i - a.length < b.length := by omega
  refine ⟨b[i - a.length], List.getElem_mem hi, ?_⟩
  rw [List.getElem?_append_right h1, List.getElem?_append_left hi, List.getElem?_eq_getElem hi]

/-- Behind its front a word begins in a call only where the second name does. -/
theorem IsCall.drop_of_word_start {l : Language} {name call : List α} (h : l.IsCall name call)
    (k : Nat) (h0 : 0 < k) (hk : k < call.length)
    (hb : Pattern.isWord call[k - 1]? = false) (hw : Pattern.isWord call[k]? = true) :
    ∃ method blank paren, call.drop k = method ++ (blank ++ [paren]) ∧
      (∀ x ∈ method, SymbolClass.word.has x = true) ∧
      (∀ x ∈ blank, SymbolClass.space.has x = true) ∧
      SymbolClass.openParen.has paren = true := by
  cases h with
  | @intro g₁ g₂ m s dot paren hn hg₁ hd hg₂ hm hs hp =>
    have hgap : ∀ x ∈ g₁ ++ dot :: g₂, SymbolClass.word.has x = false := by
      intro x hx
      rcases List.mem_append.mp hx with hx | hx
      · exact not_word_of_space x (hg₁.1 x hx)
      rcases List.mem_cons.mp hx with rfl | hx
      · exact (isMark_of_dot x hd).1
      · exact not_word_of_space x (hg₂.1 x hx)
    have htail : ∀ x ∈ s ++ [paren], SymbolClass.word.has x = false := by
      intro x hx
      rcases List.mem_append.mp hx with hx | hx
      · exact not_word_of_space x (hs x hx)
      · obtain rfl : x = paren := by simpa using hx
        exact (isMark_of_openParen x hp).1
    have he : name ++ (g₁ ++ dot :: (g₂ ++ (m ++ (s ++ [paren])))) =
        name ++ ((g₁ ++ dot :: g₂) ++ (m ++ (s ++ [paren]))) := by simp
    rw [he] at hk hb hw ⊢
    revert hgap htail
    generalize g₁ ++ dot :: g₂ = gap, htl : s ++ [paren] = tl at hk hb hw ⊢
    intro hgap htail
    have hl : k < name.length + gap.length + m.length + tl.length := by
      simpa [Nat.add_assoc] using hk
    by_cases h1 : k < name.length
    · obtain ⟨x, hx, hxk⟩ := getElem?_part [] name (gap ++ (m ++ tl)) (k - 1) (by simp)
        (by simp; omega)
      rw [List.nil_append] at hxk
      rw [hxk] at hb
      exact absurd (hn.2.1 x hx) (by simpa [Pattern.isWord] using hb)
    by_cases h2 : k < name.length + gap.length
    · obtain ⟨x, hx, hxk⟩ := getElem?_part name gap (m ++ tl) k (by omega) h2
      rw [hxk] at hw
      exact absurd (hgap x hx) (by simpa [Pattern.isWord] using hw)
    by_cases h3 : k = name.length + gap.length
    · refine ⟨m, s, paren, ?_, hm.2.1, hs, hp⟩
      rw [h3, htl, ← List.append_assoc, ← List.length_append, List.drop_left]
    by_cases h4 : k < name.length + gap.length + m.length
    · obtain ⟨x, hx, hxk⟩ := getElem?_part (name ++ gap) m tl (k - 1) (by simp; omega)
        (by simp; omega)
      rw [List.append_assoc] at hxk
      rw [hxk] at hb
      exact absurd (hm.2.1 x hx) (by simpa [Pattern.isWord] using hb)
    · obtain ⟨x, hx, hxk⟩ := getElem?_part (name ++ gap ++ m) tl [] k (by simp; omega)
        (by simp; omega)
      simp only [List.append_nil, List.append_assoc] at hxk
      rw [hxk] at hw
      exact absurd (htail x hx) (by simpa [Pattern.isWord] using hw)

/-- Calls do not overlap. -/
theorem callAt_apart (l : Language) (text : List α) (i j : Nat)
    (name name' call call' : List α) (h : CallAt l text i name call)
    (h' : CallAt l text j name' call') (hij : i < j) : i + call.length ≤ j := by
  by_contra hlt
  obtain ⟨rest, hr⟩ := h.2.2
  obtain ⟨rest', hr'⟩ := h'.2.2
  obtain ⟨k, rfl⟩ : ∃ k, j = i + k := ⟨j - i, by omega⟩
  have hk : k < call.length := by omega
  have hat : ∀ n < call.length, text[i + n]? = call[n]? := by
    intro n hn
    rw [← List.getElem?_drop, ← hr, List.getElem?_append_left hn]
  have hb : Pattern.isWord call[k - 1]? = false := by
    have hprev := h'.1
    have hlast := hat (k - 1) (by omega)
    rw [List.getElem?_eq_getElem (show k - 1 < call.length by omega)] at hlast ⊢
    rw [List.getLast?_take, if_neg (by omega), show i + k - 1 = i + (k - 1) by omega,
      hlast] at hprev
    exact hprev
  have hw : Pattern.isWord call[k]? = true := by
    rw [← hat k hk, ← List.head?_drop, ← hr']
    exact h'.2.1.isWord_head rest'
  obtain ⟨m, s, paren, hd, hm, hs, hp⟩ := h.2.1.drop_of_word_start k (by omega) hk hb hw
  -- what begins there is read as a second name with its parenthesis, and as a name with its dot
  have he : m ++ (s ++ paren :: rest) = call' ++ rest' := by
    rw [hr', ← List.drop_drop, ← hr, List.drop_append_of_le_length (Nat.le_of_lt hk), hd]
    simp
  cases h'.2.1 with
  | @intro g₁ g₂ m' s' dot paren' hn hg₁ hdot =>
    simp only [List.append_assoc, List.cons_append] at he
    obtain ⟨-, -, rfl, -⟩ := front_unique _ _ _ _ _ _ _ _ hm hn.2.1 hs hg₁.1
      (isMark_of_openParen paren hp) (isMark_of_dot dot hdot) he
    have hno := SymbolClass.has_excl .openParen .dot nofun nofun nofun paren hp
    rw [hdot] at hno
    cases hno

theorem matchLength_boundary (l : Language) (before : Option α) (xs : List α) :
    l.call.matchLength before xs =
      if Pattern.isWord before != Pattern.isWord xs.head? then
        Pattern.matchLength l.call.tail before xs
      else none := by
  cases l <;> rw [call, Pattern.matchLength, List.tail_cons]

theorem boundary_not_mem_tail (l : Language) : .boundary ∉ l.call.tail := by
  cases l <;> decide

/-- The matcher finds a call at a place if and only if there is one, and takes all of it. -/
theorem matchLength_call (l : Language) (pre xs : List α) (n : Nat) :
    l.call.matchLength pre.getLast? xs = some n ↔
      ∃ name call, CallAt l (pre ++ xs) pre.length name call ∧ call.length = n := by
  have htake : (pre ++ xs).take pre.length = pre := List.take_left
  have hdrop : (pre ++ xs).drop pre.length = xs := List.drop_left
  have hsound : ∀ n, l.call.matchLength pre.getLast? xs = some n →
      ∃ name call, CallAt l (pre ++ xs) pre.length name call ∧ call.length = n := by
    intro n hm
    rw [matchLength_boundary] at hm
    split_ifs at hm with hb
    obtain ⟨w, rest, rfl, hl, hf⟩ :=
      Pattern.fits_of_matchLength _ _ _ _ (boundary_not_mem_tail l) hm
    obtain ⟨name, hc⟩ := (fits_call l w).mp hf
    rw [hc.isWord_head rest, bne_iff_ne, ne_eq, Bool.not_eq_true] at hb
    refine ⟨name, w, ⟨?_, hc, ?_⟩, hl⟩
    · rw [htake]
      exact hb
    · rw [hdrop]
      exact List.prefix_append w rest
  refine ⟨hsound n, ?_⟩
  intro h
  obtain ⟨name, call, hc, hn⟩ := h
  subst hn
  obtain ⟨rest, hr⟩ := hc.2.2
  rw [hdrop] at hr
  have hb := hc.1
  rw [htake] at hb
  have hsome : (l.call.matchLength pre.getLast? xs).isSome := by
    rw [matchLength_boundary, ← hr, hc.2.1.isWord_head rest, hb]
    exact Pattern.matchLength_isSome _ _ rest _ ((fits_call l call).mpr ⟨name, hc.2.1⟩)
  obtain ⟨k, hk⟩ := Option.isSome_iff_exists.mp hsome
  obtain ⟨name', call', hc', rfl⟩ := hsound k hk
  rw [hk, (callAt_unique l _ _ _ _ _ _ hc hc').2]

/-- All calls in a text from a place on, in order. -/
def CallsFrom (l : Language) (text : List α) (k : Nat) (calls : List (List α)) : Prop :=
  ∃ places : List Nat, places.Pairwise (· < ·) ∧
    (∀ i, i ∈ places ↔ k ≤ i ∧ ∃ name call, CallAt l text i name call) ∧
    List.Forall₂ (fun i call => ∃ name, CallAt l text i name call) places calls

theorem callAt_lt_length (l : Language) (text : List α) (i : Nat) (name call : List α)
    (h : CallAt l text i name call) : i < text.length := by
  have hp := h.2.2.length_le
  have hpos := h.2.1.length_pos
  rw [List.length_drop] at hp
  omega

theorem callsFrom_end (l : Language) (text : List α) : CallsFrom l text text.length [] := by
  refine ⟨[], .nil, ?_, .nil⟩
  intro i
  simp only [List.not_mem_nil, false_iff, not_and, not_exists]
  intro hi name call hc
  have hlt := callAt_lt_length l text i name call hc
  omega

theorem callsFrom_skip (l : Language) (text : List α) (k : Nat) (calls : List (List α))
    (hk : ∀ name call, ¬CallAt l text k name call) (h : CallsFrom l text (k + 1) calls) :
    CallsFrom l text k calls := by
  obtain ⟨places, hp, hi, hf⟩ := h
  refine ⟨places, hp, ?_, hf⟩
  intro i
  rw [hi]
  constructor
  · intro h
    exact ⟨by omega, h.2⟩
  · intro h
    obtain ⟨hle, name, call, hc⟩ := h
    have hne : i ≠ k := by
      intro hik
      subst hik
      exact hk name call hc
    exact ⟨by omega, name, call, hc⟩

/-- Behind a call the search may go on at its end, since no other call begins within it. -/
theorem callsFrom_cons (l : Language) (text : List α) (k : Nat) (name call : List α)
    (calls : List (List α)) (hc : CallAt l text k name call)
    (h : CallsFrom l text (k + call.length) calls) : CallsFrom l text k (call :: calls) := by
  obtain ⟨places, hp, hi, hf⟩ := h
  have hpos := hc.2.1.length_pos
  refine ⟨k :: places, List.pairwise_cons.mpr ⟨?_, hp⟩, ?_, .cons ⟨name, hc⟩ hf⟩
  · intro i hm
    have hle := ((hi i).mp hm).1
    omega
  · intro i
    rw [List.mem_cons, hi]
    constructor
    · intro h
      rcases h with h | h
      · subst h
        exact ⟨Nat.le_refl _, name, call, hc⟩
      · exact ⟨by omega, h.2⟩
    · intro h
      obtain ⟨hle, name', call', hc'⟩ := h
      rcases Nat.eq_or_lt_of_le hle with hik | hlt
      · exact .inl hik.symm
      · exact .inr ⟨callAt_apart l text k i _ _ _ _ hc hc' hlt, name', call', hc'⟩

theorem callsFrom_matchesFrom (l : Language) (pre xs : List α) :
    CallsFrom l (pre ++ xs) pre.length (l.call.matchesFrom pre.getLast? xs) := by
  generalize hb : pre.getLast? = before
  fun_induction Pattern.matchesFrom l.call before xs generalizing pre with
  | case1 before =>
    rw [List.append_nil]
    exact callsFrom_end l pre
  | case2 before x xs n hm ih =>
    subst hb
    obtain ⟨name, call, hc, hl⟩ := (matchLength_call l pre (x :: xs) (n + 1)).mp hm
    have hcall : call = x :: xs.take n := by
      have hp := List.prefix_iff_eq_take.mp hc.2.2
      rw [List.drop_left, hl] at hp
      simpa using hp
    subst hcall
    have hnext := ih (pre ++ x :: xs.take n) (List.getLast?_append_of_ne_nil pre (by simp))
    rw [List.append_assoc, List.cons_append, List.take_append_drop, List.length_append] at hnext
    exact callsFrom_cons l _ _ name _ _ hc hnext
  | case3 before x xs hm ih =>
    subst hb
    have hnext := ih (pre ++ [x]) (by simp)
    rw [List.append_assoc, List.singleton_append, List.length_append] at hnext
    refine callsFrom_skip l _ _ _ ?_ hnext
    intro name call hc
    obtain ⟨n, hn⟩ := Nat.exists_eq_add_one.mpr hc.2.1.length_pos
    exact hm n ((matchLength_call l pre (x :: xs) (n + 1)).mpr ⟨name, call, hc, hn⟩)

theorem callsFrom_findAll (l : Language) (text : List α) :
    CallsFrom l text 0 (l.call.findAll text) :=
  callsFrom_matchesFrom l [] text

/-- A text has one list of calls. -/
theorem callsFrom_unique (l : Language) (text : List α) (k : Nat) (calls calls' : List (List α))
    (h : CallsFrom l text k calls) (h' : CallsFrom l text k calls') : calls = calls' := by
  obtain ⟨places, hp, hi, hf⟩ := h
  obtain ⟨places', hp', hi', hf'⟩ := h'
  have hsame : places = places' := by
    apply hp.eq_of_mem_iff hp'
    intro i
    rw [hi, hi']
  subst hsame
  refine List.right_unique_forall₂' ?_ hf hf'
  rintro i call call' ⟨name, hc⟩ ⟨name', hc'⟩
  exact (callAt_unique l text i name name' call call' hc hc').2

theorem findAll_eq (l : Language) (text : List α) (calls : List (List α))
    (h : CallsFrom l text 0 calls) : l.call.findAll text = calls :=
  callsFrom_unique l text 0 _ _ (callsFrom_findAll l text) h

end CallGraph.Language
