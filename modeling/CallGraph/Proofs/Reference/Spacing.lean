import CallGraph.Proofs.Reference
import Mathlib.Order.Monotone.Basic

namespace CallGraph.Language

variable {α : Type} [Symbol α]

/-- White space at the end of a text, behind something that does not end with any. -/
theorem trailing_space (core t w s : List α)
    (hcore : ∀ x ∈ core.getLast?, SymbolClass.space.has x = false)
    (hs : ∀ x ∈ s, SymbolClass.space.has x = true) (h : core ++ t = w ++ s) :
    ∃ t', w = core ++ t' ∧ t = t' ++ s := by
  rcases List.append_eq_append_iff.mp h with ⟨t', hw, ht⟩ | ⟨c, hc, ht⟩
  · exact ⟨t', hw, ht⟩
  · obtain rfl | ⟨c, x, rfl⟩ := List.eq_nil_or_concat' c
    · exact ⟨[], by simpa using hc.symm, by simpa using ht.symm⟩
    · have hx := hs x (by simp [ht])
      rw [hcore x (by simp [hc])] at hx
      cases hx

/-- White space at the front of a text, before something that does not begin with any. -/
theorem leading_space (core t r s : List α)
    (hcore : ∀ x ∈ core.head?, SymbolClass.space.has x = false)
    (hs : ∀ x ∈ s, SymbolClass.space.has x = true) (h : t ++ core = s ++ r) :
    ∃ t', r = t' ++ core ∧ t = s ++ t' := by
  rcases List.append_eq_append_iff.mp h with ⟨c, ht, hc⟩ | ⟨t', ht, hr⟩
  · cases c with
    | nil => exact ⟨[], by simpa using hc.symm, by simpa using ht.symm⟩
    | cons x c =>
      have hx := hs x (by simp [ht])
      rw [hcore x (by simp [hc])] at hx
      cases hx
  · exact ⟨t', hr, ht⟩

/-- A text can be cut in one way only at a symbol of a class that it does not hold elsewhere. -/
theorem cut_unique (c : SymbolClass) (front front' back back' : List α) (x x' : α)
    (hx' : c.has x' = true) (hfront : ∀ y ∈ front, c.has y = false)
    (hback : ∀ y ∈ back, c.has y = false) (h : front ++ x :: back = front' ++ x' :: back') :
    front = front' ∧ x = x' ∧ back = back' := by
  have hout : ∀ ys : List α, (∀ y ∈ ys, c.has y = false) → x' ∉ ys := by
    intro ys hys hmem
    rw [hys x' hmem] at hx'
    cases hx'
  exact (List.append_cons_inj_of_notMem (hout front hfront) (hout back hback)).mp h

/-- What stands behind the dot of a call and the gap after it. -/
def IsTail (l : Language) (tail : List α) : Prop :=
  ∃ method blank paren, l.IsName method ∧ (∀ x ∈ blank, SymbolClass.space.has x = true) ∧
    SymbolClass.openParen.has paren = true ∧ tail = method ++ (blank ++ [paren])

/-- A call up to its second name. -/
def IsCore (l : Language) (name core : List α) : Prop :=
  ∃ gap dot gap' method, l.IsName name ∧ l.IsGap gap ∧ SymbolClass.dot.has dot = true ∧
    l.IsGap gap' ∧ l.IsName method ∧ core = name ++ (gap ++ dot :: (gap' ++ method))

theorem isCall_dot_iff (l : Language) (name front back : List α) (dot : α)
    (hdot : SymbolClass.dot.has dot = true) : l.IsCall name (front ++ dot :: back) ↔
      l.IsName name ∧ (∃ gap, l.IsGap gap ∧ front = name ++ gap) ∧
      ∃ gap' tail, l.IsGap gap' ∧ l.IsTail tail ∧ back = gap' ++ tail := by
  constructor
  · intro h
    generalize hcall : front ++ dot :: back = call at h
    cases h with
    | @intro gap gap' method blank dot' paren hn hg hd hg' hm hb hp =>
      have hfront : ∀ x ∈ name ++ gap, SymbolClass.dot.has x = false := by
        rw [List.forall_mem_append]
        exact ⟨fun x hx => not_dot_of_word x (hn.2.1 x hx),
          fun x hx => not_dot_of_space x (hg.1 x hx)⟩
      have hback : ∀ x ∈ gap' ++ (method ++ (blank ++ [paren])),
          SymbolClass.dot.has x = false := by
        simp only [List.forall_mem_append, List.forall_mem_singleton]
        exact ⟨fun x hx => not_dot_of_space x (hg'.1 x hx),
          fun x hx => not_dot_of_word x (hm.2.1 x hx), fun x hx => not_dot_of_space x (hb x hx),
          SymbolClass.has_excl .openParen .dot nofun nofun nofun paren hp⟩
      rw [← List.append_assoc] at hcall
      obtain ⟨rfl, -, rfl⟩ := cut_unique .dot _ _ _ _ dot' dot hdot hfront hback hcall.symm
      exact ⟨hn, ⟨gap, hg, rfl⟩, gap', _, hg', ⟨method, blank, paren, hm, hb, hp, rfl⟩, rfl⟩
  · intro h
    obtain ⟨hn, ⟨gap, hg, rfl⟩, gap', tail, hg', ⟨method, blank, paren, hm, hb, hp, rfl⟩, rfl⟩ := h
    rw [List.append_assoc]
    exact .intro hn hg hdot hg' hm hb hp

theorem isCall_paren_iff (l : Language) (name body rest : List α) (paren : α)
    (hparen : SymbolClass.openParen.has paren = true) : l.IsCall name (body ++ paren :: rest) ↔
      rest = [] ∧ ∃ core blank, l.IsCore name core ∧
        (∀ x ∈ blank, SymbolClass.space.has x = true) ∧ body = core ++ blank := by
  have hsplit (gap gap' method blank : List α) (dot paren : α) :
      name ++ (gap ++ dot :: (gap' ++ (method ++ (blank ++ [paren])))) =
        (name ++ (gap ++ dot :: (gap' ++ method)) ++ blank) ++ [paren] := by simp
  constructor
  · intro h
    generalize hcall : body ++ paren :: rest = call at h
    cases h with
    | @intro gap gap' method blank dot paren' hn hg hd hg' hm hb hp =>
      have hword (x : α) (hx : SymbolClass.word.has x = true) :
          SymbolClass.openParen.has x = false :=
        SymbolClass.has_excl .word .openParen nofun nofun nofun x hx
      have hspace (x : α) (hx : SymbolClass.space.has x = true) :
          SymbolClass.openParen.has x = false :=
        SymbolClass.has_excl .space .openParen nofun nofun nofun x hx
      have hbody : ∀ x ∈ name ++ (gap ++ dot :: (gap' ++ method)) ++ blank,
          SymbolClass.openParen.has x = false := by
        simp only [List.forall_mem_append, List.forall_mem_cons]
        exact ⟨⟨fun x hx => hword x (hn.2.1 x hx), fun x hx => hspace x (hg.1 x hx),
          SymbolClass.has_excl .dot .openParen nofun nofun nofun dot hd,
          fun x hx => hspace x (hg'.1 x hx), fun x hx => hword x (hm.2.1 x hx)⟩,
          fun x hx => hspace x (hb x hx)⟩
      rw [hsplit] at hcall
      obtain ⟨rfl, -, rfl⟩ :=
        cut_unique .openParen _ _ _ _ paren' paren hparen hbody (by simp) hcall.symm
      exact ⟨rfl, _, blank, ⟨gap, dot, gap', method, hn, hg, hd, hg', hm, rfl⟩, hb, rfl⟩
  · intro h
    obtain ⟨rfl, core, blank, ⟨gap, dot, gap', method, hn, hg, hd, hg', hm, rfl⟩, hb, rfl⟩ := h
    rw [← hsplit]
    exact .intro hn hg hd hg' hm hb hparen

theorem IsName.not_space {l : Language} {w : List α} (h : l.IsName w) :
    ∀ x ∈ w, SymbolClass.space.has x = false := fun x hx => not_space_of_word x (h.2.1 x hx)

theorem isGap_python (s : List α) :
    IsGap .python s ↔ ∀ x ∈ s, SymbolClass.space.has x = true := by
  simp [IsGap]

/-- White space in front of the dot. -/
theorem isCall_space_dot (name w s r : List α) (dot : α) (hdot : SymbolClass.dot.has dot = true)
    (hs : ∀ x ∈ s, SymbolClass.space.has x = true) :
    IsCall .python name (w ++ (s ++ dot :: r)) ↔ IsCall .python name (w ++ dot :: r) := by
  rw [← List.append_assoc, isCall_dot_iff _ _ _ _ dot hdot, isCall_dot_iff _ _ _ _ dot hdot]
  refine and_congr_right fun hn => and_congr_left fun _ => ?_
  constructor
  · intro h
    obtain ⟨gap, hg, hfront⟩ := h
    have hlast : ∀ x ∈ name.getLast?, SymbolClass.space.has x = false := fun x hx =>
      hn.not_space x (List.mem_of_getLast? hx)
    obtain ⟨gap', hw, rfl⟩ := trailing_space name gap w s hlast hs hfront.symm
    exact ⟨gap', (isGap_python _).mpr fun x hx => hg.1 x (by simp [hx]), hw⟩
  · intro h
    obtain ⟨gap, hg, rfl⟩ := h
    refine ⟨gap ++ s, (isGap_python _).mpr ?_, List.append_assoc _ _ _⟩
    exact List.forall_mem_append.mpr ⟨hg.1, hs⟩

/-- White space behind the dot. -/
theorem isCall_dot_space (name w s r : List α) (dot : α) (hdot : SymbolClass.dot.has dot = true)
    (hs : ∀ x ∈ s, SymbolClass.space.has x = true) :
    IsCall .python name (w ++ dot :: (s ++ r)) ↔ IsCall .python name (w ++ dot :: r) := by
  rw [isCall_dot_iff _ _ _ _ dot hdot, isCall_dot_iff _ _ _ _ dot hdot]
  refine and_congr_right fun hn => and_congr_right fun _ => ?_
  constructor
  · intro h
    obtain ⟨gap, tail, hg, ht, hback⟩ := h
    have hhead : ∀ x ∈ tail.head?, SymbolClass.space.has x = false := by
      obtain ⟨method, blank, paren, hm, -, -, rfl⟩ := ht
      rw [List.head?_append_of_ne_nil _ hm.1]
      exact fun x hx => hm.not_space x (List.mem_of_head? hx)
    obtain ⟨gap', hr, rfl⟩ := leading_space tail gap r s hhead hs hback.symm
    exact ⟨gap', tail, (isGap_python _).mpr fun x hx => hg.1 x (by simp [hx]), ht, hr⟩
  · intro h
    obtain ⟨gap, tail, hg, ht, rfl⟩ := h
    refine ⟨s ++ gap, tail, (isGap_python _).mpr ?_, ht, (List.append_assoc _ _ _).symm⟩
    exact List.forall_mem_append.mpr ⟨hs, hg.1⟩

/-- White space in front of the parenthesis. -/
theorem isCall_space_paren (l : Language) (name w s r : List α) (paren : α)
    (hparen : SymbolClass.openParen.has paren = true)
    (hs : ∀ x ∈ s, SymbolClass.space.has x = true) :
    l.IsCall name (w ++ (s ++ paren :: r)) ↔ l.IsCall name (w ++ paren :: r) := by
  rw [← List.append_assoc, isCall_paren_iff _ _ _ _ paren hparen,
    isCall_paren_iff _ _ _ _ paren hparen]
  refine and_congr_right fun _ => ?_
  constructor
  · intro h
    obtain ⟨core, blank, hc, hb, hbody⟩ := h
    have hlast : ∀ x ∈ core.getLast?, SymbolClass.space.has x = false := by
      obtain ⟨gap, dot, gap', method, -, -, -, -, hm, rfl⟩ := hc
      have hend : name ++ (gap ++ dot :: (gap' ++ method)) =
          (name ++ (gap ++ dot :: gap')) ++ method := by simp
      rw [hend, List.getLast?_append_of_ne_nil _ hm.1]
      exact fun x hx => hm.not_space x (List.mem_of_getLast? hx)
    obtain ⟨blank', hw, rfl⟩ := trailing_space core blank w s hlast hs hbody.symm
    exact ⟨core, blank', hc, fun x hx => hb x (by simp [hx]), hw⟩
  · intro h
    obtain ⟨core, blank, hc, hb, rfl⟩ := h
    exact ⟨core, blank ++ s, hc, List.forall_mem_append.mpr ⟨hb, hs⟩, List.append_assoc _ _ _⟩

/-- Between two parts of a text white space makes no difference for calls: in front of a parenthesis,
and in Python on either side of a dot. -/
def Seam (l : Language) (x y : List α) : Prop :=
  (∃ c ∈ y.head?, SymbolClass.openParen.has c = true) ∨
    l = .python ∧ ((∃ c ∈ y.head?, SymbolClass.dot.has c = true) ∨
      ∃ c ∈ x.getLast?, SymbolClass.dot.has c = true)

theorem Seam.drop {l : Language} {x y : List α} (h : Seam l x y) (i : Nat) (hi : i < x.length) :
    Seam l (x.drop i) y := by
  have hlast : (x.drop i).getLast? = x.getLast? := by
    rw [List.getLast?_drop, if_neg (by omega)]
  rwa [Seam, hlast]

theorem Seam.front {l : Language} {x y y' : List α} (h : Seam l x y) (hy : y' <+: y)
    (hne : y' ≠ []) : Seam l x y' := by
  have hhead : y'.head? = y.head? := by
    obtain ⟨rest, rfl⟩ := hy
    rw [List.head?_append_of_ne_nil _ hne]
  rwa [Seam, hhead]

theorem isCall_seam (l : Language) (name w s r : List α) (h : Seam l w r)
    (hs : ∀ x ∈ s, SymbolClass.space.has x = true) :
    l.IsCall name (w ++ (s ++ r)) ↔ l.IsCall name (w ++ r) := by
  rcases h with ⟨c, hc, hparen⟩ | ⟨rfl, ⟨c, hc, hdot⟩ | ⟨c, hc, hdot⟩⟩
  · obtain ⟨r', rfl⟩ := List.head?_eq_some_iff.mp hc
    exact isCall_space_paren l name w s r' c hparen hs
  · obtain ⟨r', rfl⟩ := List.head?_eq_some_iff.mp hc
    exact isCall_space_dot name w s r' c hdot hs
  · obtain ⟨w', rfl⟩ := List.getLast?_eq_some_iff.mp hc
    rw [List.append_assoc, List.append_assoc]
    exact isCall_dot_space name w' s r c hdot hs

theorem IsCall.getLast {l : Language} {name call : List α} (h : l.IsCall name call) :
    ∃ x ∈ call.getLast?, SymbolClass.openParen.has x = true := by
  cases h with
  | @intro gap gap' method blank dot paren hn hg hd hg' hm hb hp =>
    exact ⟨paren, by simp [List.getLast?_cons], hp⟩

/-- A call does not end in white space. -/
theorem IsCall.eq_nil_of_space {l : Language} {name w s : List α} (h : l.IsCall name (w ++ s))
    (hs : ∀ x ∈ s, SymbolClass.space.has x = true) : s = [] := by
  obtain ⟨x, hx, hp⟩ := h.getLast
  by_contra hne
  rw [List.getLast?_append_of_ne_nil w hne] at hx
  have hspace := hs x (List.mem_of_getLast? hx)
  rw [(isMark_of_openParen x hp).2] at hspace
  cases hspace

omit [Symbol α] in
/-- What begins at the front of a text ends within its first part or goes on in the second. -/
theorem prefix_append_cases {call w y : List α} (h : call <+: w ++ y) :
    call <+: w ∨ ∃ r ≠ [], call = w ++ r ∧ r <+: y := by
  rcases List.prefix_or_prefix_of_prefix h (List.prefix_append w y) with hc | ⟨r, rfl⟩
  · exact .inl hc
  by_cases hr : r = []
  · exact .inl (by simp [hr])
  · exact .inr ⟨r, hr, rfl, (List.prefix_append_right_inj w).mp h⟩

/-- The call that begins a text, with white space at a seam or without. -/
theorem exists_call_seam (l : Language) (name w s v : List α) (h : Seam l w v)
    (hs : ∀ x ∈ s, SymbolClass.space.has x = true) :
    (∃ call, l.IsCall name call ∧ call <+: w ++ (s ++ v)) ↔
      ∃ call, l.IsCall name call ∧ call <+: w ++ v := by
  constructor
  · intro hcall
    obtain ⟨call, hc, hp⟩ := hcall
    obtain hw | ⟨r, hne, rfl, hr⟩ := prefix_append_cases hp
    · exact ⟨call, hc, hw.trans (List.prefix_append w v)⟩
    obtain hr | ⟨r', hne', rfl, hr'⟩ := prefix_append_cases hr
    · exact absurd (hc.eq_nil_of_space fun x hx => hs x (hr.subset hx)) hne
    · refine ⟨w ++ r', ?_, (List.prefix_append_right_inj w).mpr hr'⟩
      exact (isCall_seam l name w s r' (h.front hr' hne') hs).mp hc
  · intro hcall
    obtain ⟨call, hc, hp⟩ := hcall
    obtain hw | ⟨r, hne, rfl, hr⟩ := prefix_append_cases hp
    · exact ⟨call, hc, hw.trans (List.prefix_append w (s ++ v))⟩
    · refine ⟨w ++ (s ++ r), (isCall_seam l name w s r (h.front hr hne) hs).mpr hc, ?_⟩
      rwa [List.prefix_append_right_inj, List.prefix_append_right_inj]

/-- A call of the name begins at a place of a text. -/
def NameAt (l : Language) (text : List α) (i : Nat) (name : List α) : Prop :=
  ∃ call, CallAt l text i name call

theorem nameAt_append (l : Language) (x y : List α) (i : Nat) (hi : i ≤ x.length) (name : List α) :
    NameAt l (x ++ y) i name ↔ Pattern.isWord (x.take i).getLast? = false ∧
      ∃ call, l.IsCall name call ∧ call <+: x.drop i ++ y := by
  simp only [NameAt, CallAt, List.take_append_of_le_length hi, List.drop_append_of_le_length hi,
    exists_and_left]

/-- No call begins where the text goes on with no word symbol. -/
theorem not_nameAt (l : Language) (text : List α) (i : Nat) (name : List α)
    (h : Pattern.isWord (text.drop i).head? = false) : ¬NameAt l text i name := by
  intro hn
  obtain ⟨call, -, hc, rest, hr⟩ := hn
  rw [← hr, hc.isWord_head rest] at h
  cases h

theorem nameAt_add_length (l : Language) (x y : List α) (k : Nat) (name : List α) :
    NameAt l (x ++ y) (x.length + k) name ↔ Pattern.isWord (x ++ y.take k).getLast? = false ∧
      ∃ call, l.IsCall name call ∧ call <+: y.drop k := by
  simp only [NameAt, CallAt, List.take_length_add_append, List.drop_length_add_append,
    exists_and_left]

theorem not_nameAt_space (l : Language) (u s v : List α)
    (hs : ∀ x ∈ s, SymbolClass.space.has x = true) (k : Nat) (hk : k < s.length) (name : List α) :
    ¬NameAt l (u ++ (s ++ v)) (u.length + k) name := by
  apply not_nameAt
  rw [List.drop_length_add_append, List.drop_append_of_le_length (Nat.le_of_lt hk),
    List.drop_eq_getElem_cons hk]
  exact not_word_of_space _ (hs _ (List.getElem_mem hk))

/-- Where a place of a text lies once others are put in. -/
def shift (cut n i : Nat) : Nat := if i < cut then i else i + n

theorem shift_strictMono (cut n : Nat) : StrictMono (shift cut n) := by
  intro i j hij
  unfold shift
  split_ifs <;> omega

section

variable {l : Language} {u s v : List α} (h : Seam l u v)
  (hs : ∀ x ∈ s, SymbolClass.space.has x = true)

include h hs

/-- At a seam the symbol in front of a word is no word symbol, with white space or without. -/
theorem Seam.isWord (hv : Pattern.isWord v.head? = true) :
    Pattern.isWord u.getLast? = false ∧ Pattern.isWord (u ++ s).getLast? = false := by
  have hmark : ∀ c ∈ v.head?, ¬IsMark c := by
    intro c hc hmark
    rw [hc] at hv
    exact absurd hmark.1 (by simpa [Pattern.isWord] using hv)
  obtain ⟨c, hc, hparen⟩ | ⟨-, ⟨c, hc, hdot⟩ | ⟨c, hc, hdot⟩⟩ := h
  · exact absurd (isMark_of_openParen c hparen) (hmark c hc)
  · exact absurd (isMark_of_dot c hdot) (hmark c hc)
  have hu : Pattern.isWord u.getLast? = false := by
    rw [hc]
    exact (isMark_of_dot c hdot).1
  refine ⟨hu, ?_⟩
  obtain rfl | ⟨s', x, rfl⟩ := List.eq_nil_or_concat' s
  · rwa [List.append_nil]
  · rw [← List.append_assoc, List.getLast?_concat]
    exact not_word_of_space x (hs x (by simp))

theorem Seam.nameAt_before (i : Nat) (hi : i < u.length) (name : List α) :
    NameAt l (u ++ (s ++ v)) i name ↔ NameAt l (u ++ v) i name := by
  rw [nameAt_append l u _ i (Nat.le_of_lt hi), nameAt_append l u _ i (Nat.le_of_lt hi),
    exists_call_seam l name _ s v (h.drop i hi) hs]

theorem Seam.nameAt_behind (k : Nat) (name : List α) :
    NameAt l (u ++ (s ++ v)) (u.length + (s.length + k)) name ↔
      NameAt l (u ++ v) (u.length + k) name := by
  by_cases hword : Pattern.isWord (v.drop k).head? = true
  · have hbefore : Pattern.isWord ((u ++ s) ++ v.take k).getLast? =
        Pattern.isWord (u ++ v.take k).getLast? := by
      -- only right behind the seam is it another symbol that stands in front
      by_cases hk : v.take k = []
      · have hdrop := List.take_append_drop k v
        rw [hk, List.nil_append] at hdrop
        rw [hdrop] at hword
        obtain ⟨hu, hus⟩ := h.isWord hs hword
        rw [hk, List.append_nil, List.append_nil, hu, hus]
      · rw [List.getLast?_append_of_ne_nil _ hk, List.getLast?_append_of_ne_nil _ hk]
    rw [← List.append_assoc, ← Nat.add_assoc, ← List.length_append, nameAt_add_length,
      nameAt_add_length, hbefore]
  · rw [Bool.not_eq_true] at hword
    have hleft := not_nameAt l (u ++ (s ++ v)) (u.length + (s.length + k)) name
      (by rwa [List.drop_length_add_append, List.drop_length_add_append])
    have hright := not_nameAt l (u ++ v) (u.length + k) name
      (by rwa [List.drop_length_add_append])
    exact iff_of_false hleft hright

theorem Seam.nameAt (j : Nat) (name : List α) :
    NameAt l (u ++ (s ++ v)) j name ↔
      ∃ i, shift u.length s.length i = j ∧ NameAt l (u ++ v) i name := by
  -- before the seam, then within the white space, then behind it
  by_cases hj : j < u.length
  · have hplace : ∀ i, shift u.length s.length i = j ↔ i = j := by
      intro i
      unfold shift
      split_ifs <;> omega
    simp only [hplace, exists_eq_left, h.nameAt_before hs j hj]
  obtain ⟨k, rfl⟩ := Nat.exists_eq_add_of_le (Nat.le_of_not_lt hj)
  by_cases hk : k < s.length
  · have hplace : ∀ i, shift u.length s.length i ≠ u.length + k := by
      intro i
      unfold shift
      split_ifs <;> omega
    simp only [hplace, false_and, exists_false, not_nameAt_space l u s v hs k hk]
  · obtain ⟨m, rfl⟩ := Nat.exists_eq_add_of_le (Nat.le_of_not_lt hk)
    have hplace : ∀ i, shift u.length s.length i = u.length + (s.length + m) ↔
        i = u.length + m := by
      intro i
      unfold shift
      split_ifs <;> omega
    simp only [hplace, exists_eq_left, h.nameAt_behind hs m]

end

omit [Symbol α] in
theorem forall₂_of_common {β γ δ : Type} {R : β → γ → Prop} {S : β → δ → Prop} {T : γ → δ → Prop}
    {xs : List β} {ys : List γ} {zs : List δ} (h : List.Forall₂ R xs ys)
    (h' : List.Forall₂ S xs zs) (hT : ∀ x y z, R x y → S x z → T y z) :
    List.Forall₂ T ys zs := by
  induction h generalizing zs with
  | nil =>
    cases h'
    exact .nil
  | cons hr _ ih =>
    cases h' with
    | cons hs hrest => exact .cons (hT _ _ _ hr hs) (ih hrest)

/-- Texts whose calls begin at corresponding places and have the same names there. -/
theorem findAll_of_places (l : Language) (text text' : List α) (f : Nat → Nat) (hf : StrictMono f)
    (h : ∀ j name, NameAt l text' j name ↔ ∃ i, f i = j ∧ NameAt l text i name) :
    List.Forall₂ (fun call call' => ∃ name, l.IsCall name call ∧ l.IsCall name call')
      (l.call.findAll text) (l.call.findAll text') := by
  obtain ⟨places, hp, hi, hcalls⟩ := callsFrom_findAll l text
  obtain ⟨places', hp', hi', hcalls'⟩ := callsFrom_findAll l text'
  have hplaces : places' = places.map f := by
    apply hp'.eq_of_mem_iff (List.pairwise_map.mpr (hp.imp fun hlt => hf hlt))
    intro j
    rw [hi', List.mem_map]
    constructor
    · intro hj
      obtain ⟨-, name, hcall⟩ := hj
      obtain ⟨i, hij, hname⟩ := (h j name).mp hcall
      exact ⟨i, (hi i).mpr ⟨Nat.zero_le i, name, hname⟩, hij⟩
    · intro hj
      obtain ⟨i, hmem, hij⟩ := hj
      obtain ⟨-, name, hname⟩ := (hi i).mp hmem
      exact ⟨Nat.zero_le j, name, (h j name).mpr ⟨i, hij, hname⟩⟩
  rw [hplaces, List.forall₂_map_left_iff] at hcalls'
  refine forall₂_of_common hcalls hcalls' ?_
  intro i call call' hcall hcall'
  obtain ⟨name, hc⟩ := hcall
  obtain ⟨name', hc'⟩ := hcall'
  obtain ⟨k, hk, call'', hc''⟩ := (h (f i) name').mp ⟨call', hc'⟩
  obtain rfl := hf.injective hk
  obtain ⟨rfl, -⟩ := callAt_unique l text k name name' call call'' hc hc''
  exact ⟨name, hc.2.1, hc'.2.1⟩

theorem findAll_seam (l : Language) (u s v : List α) (h : Seam l u v)
    (hs : ∀ x ∈ s, SymbolClass.space.has x = true) :
    List.Forall₂ (fun call call' => ∃ name, l.IsCall name call ∧ l.IsCall name call')
      (l.call.findAll (u ++ v)) (l.call.findAll (u ++ (s ++ v))) :=
  findAll_of_places l _ _ _ (shift_strictMono u.length s.length) (h.nameAt hs)

end CallGraph.Language

namespace CallGraph.Reference

open CallGraph.Language

/-- The white space of ASCII. -/
def blanks : List Char := ['\t', '\n', '\x0B', '\x0C', '\r', ' ']

theorem space_of_mem_blanks (c : Char) (h : c ∈ blanks) : SymbolClass.space.has c = true := by
  simp only [blanks, List.mem_cons, List.not_mem_nil, or_false] at h
  rcases h with rfl | rfl | rfl | rfl | rfl | rfl <;> rfl

theorem extract_seam (l : Language) (u s v : String) (h : Seam l u.toList v.toList)
    (hs : ∀ c ∈ s.toList, c ∈ blanks) : extract l (u ++ (s ++ v)) = extract l (u ++ v) := by
  have hcalls := findAll_seam l u.toList s.toList v.toList h
    fun c hc => space_of_mem_blanks c (hs c hc)
  rw [extract, extract, String.toList_append, String.toList_append, String.toList_append,
    ← List.forall₂_eq_eq_eq, List.forall₂_map_left_iff, List.forall₂_map_right_iff]
  refine hcalls.flip.imp ?_
  intro call' call hname
  obtain ⟨name, hc, hc'⟩ := hname
  rw [qualifier_call l name call hc, qualifier_call l name call' hc']

/-- White space in front of a parenthesis, and in Python on either side of a dot, changes nothing of
what is found, wherever in a text it stands and whatever stands around it. -/
theorem extract_ignores_blanks (x y s s' : String) (hs : ∀ c ∈ s.toList, c ∈ blanks)
    (hs' : ∀ c ∈ s'.toList, c ∈ blanks) :
    extract .python (x ++ s ++ "." ++ s' ++ y) = extract .python (x ++ "." ++ y) ∧
    ∀ l : Language, extract l (x ++ s ++ "(" ++ y) = extract l (x ++ "(" ++ y) := by
  constructor
  · have hfront : Seam .python x.toList ("." ++ (s' ++ y)).toList :=
      .inr ⟨rfl, .inl ⟨'.', by simp, rfl⟩⟩
    have hback : Seam .python (x ++ ".").toList y.toList := .inr ⟨rfl, .inr ⟨'.', by simp, rfl⟩⟩
    calc extract .python (x ++ s ++ "." ++ s' ++ y)
        = extract .python (x ++ (s ++ ("." ++ (s' ++ y)))) := by simp only [String.append_assoc]
      _ = extract .python (x ++ ("." ++ (s' ++ y))) := extract_seam _ _ _ _ hfront hs
      _ = extract .python (x ++ "." ++ (s' ++ y)) := by rw [String.append_assoc]
      _ = extract .python (x ++ "." ++ y) := extract_seam _ _ _ _ hback hs'
  · intro l
    have hparen : Seam l x.toList ("(" ++ y).toList := .inl ⟨'(', by simp, rfl⟩
    rw [String.append_assoc, String.append_assoc, String.append_assoc]
    exact extract_seam l x s ("(" ++ y) hparen hs

/-- White space of several kinds around the dot of a call, and between the names of two others. -/
theorem extract_ignores_blanks_kinds :
    (∀ c ∈ "\t \x0B".toList, c ∈ blanks) ∧ (∀ c ∈ "\r\n".toList, c ∈ blanks) ∧
    extract .python ("a.b" ++ "\t \x0B" ++ "." ++ "\r\n" ++ "c(d.e (") =
      extract .python ("a.b" ++ "." ++ "c(d.e (") ∧
    extract .plsql ("a.b" ++ "\t \x0B" ++ "(" ++ "c(d.e (") =
      extract .plsql ("a.b" ++ "(" ++ "c(d.e (") := by
  have hs : ∀ c ∈ "\t \x0B".toList, c ∈ blanks := by simp [blanks]
  have hs' : ∀ c ∈ "\r\n".toList, c ∈ blanks := by simp [blanks]
  have h := extract_ignores_blanks "a.b" "c(d.e (" "\t \x0B" "\r\n" hs hs'
  exact ⟨hs, hs', h.1, h.2 .plsql⟩

end CallGraph.Reference
