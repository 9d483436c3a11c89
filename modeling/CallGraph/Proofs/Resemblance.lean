import CallGraph.Proofs.Pattern

namespace CallGraph

variable {α β : Type} [Symbol α] [Symbol β]

/-- Two texts with the same ASCII symbols. Where one has a stretch of others, of any length, the other
has one too. -/
inductive Resembles : List α → List β → Prop
  | nil : Resembles [] []
  | ascii {x : α} {y : β} {xs : List α} {ys : List β} (same : Symbol.code x = Symbol.code y)
      (ascii : Symbol.code x < 128) (h : Resembles xs ys) : Resembles (x :: xs) (y :: ys)
  | other {us : List α} {vs : List β} {xs : List α} {ys : List β} (hu : us ≠ []) (hv : vs ≠ [])
      (hus : ∀ x ∈ us, 128 ≤ Symbol.code x) (hvs : ∀ y ∈ vs, 128 ≤ Symbol.code y)
      (h : Resembles xs ys) : Resembles (us ++ xs) (vs ++ ys)

namespace Resembles

theorem append {xs xs' : List α} {ys ys' : List β} (h : Resembles xs ys) (h' : Resembles xs' ys') :
    Resembles (xs ++ xs') (ys ++ ys') := by
  induction h with
  | nil => exact h'
  | ascii same ascii h ih => exact .ascii same ascii ih
  | other hu hv hus hvs h ih =>
    rw [List.append_assoc, List.append_assoc]
    exact .other hu hv hus hvs ih

theorem nil_iff {xs : List α} {ys : List β} (h : Resembles xs ys) : xs = [] ↔ ys = [] := by
  cases h with
  | nil => simp
  | ascii => simp
  | other hu hv => simp [hu, hv]

/-- Symbols at the front are in the same classes. If they are ASCII, what follows them is alike. -/
theorem exists_cons {x : α} {xs : List α} {ys : List β} (h : Resembles (x :: xs) ys) :
    ∃ y ys', ys = y :: ys' ∧ (∀ c : SymbolClass, c.has x = c.has y) ∧
      (Symbol.code x < 128 → Symbol.code x = Symbol.code y ∧ Resembles xs ys') := by
  generalize hx : x :: xs = text at h
  cases h with
  | nil => cases hx
  | @ascii x' y xs' ys' same ascii h =>
    obtain ⟨rfl, rfl⟩ := List.cons.inj hx
    refine ⟨y, ys', rfl, ?_, fun _ => ⟨same, h⟩⟩
    intro c
    rw [SymbolClass.has, SymbolClass.has, same]
  | @other us vs xs' ys' hu hv hus hvs h =>
    obtain ⟨u, us, rfl⟩ := List.exists_cons_of_ne_nil hu
    obtain ⟨v, vs, rfl⟩ := List.exists_cons_of_ne_nil hv
    obtain ⟨rfl, -⟩ := List.cons.inj hx
    have hx := hus x (by simp)
    refine ⟨v, vs ++ ys', rfl, ?_, ?_⟩
    · intro c
      rw [c.not_has_of_le x hx, c.not_has_of_le v (hvs v (by simp))]
    · intro hlt
      omega

theorem isWord_head {xs : List α} {ys : List β} (h : Resembles xs ys) :
    Pattern.isWord xs.head? = Pattern.isWord ys.head? := by
  cases xs with
  | nil => rw [h.nil_iff.mp rfl]; rfl
  | cons x xs =>
    obtain ⟨y, ys', rfl, hclass, -⟩ := h.exists_cons
    exact hclass .word

/-- A front of ASCII symbols has its like in the other text. -/
theorem split {xs : List α} {ys : List β} (h : Resembles xs ys) (n : Nat)
    (ha : ∀ x ∈ xs.take n, Symbol.code x < 128) :
    (xs.take n).map Symbol.code = (ys.take n).map Symbol.code ∧
      Resembles (xs.drop n) (ys.drop n) := by
  induction n generalizing xs ys with
  | zero => exact ⟨rfl, h⟩
  | succ n ih =>
    cases xs with
    | nil =>
      obtain rfl := h.nil_iff.mp rfl
      exact ⟨rfl, .nil⟩
    | cons x xs =>
      obtain ⟨y, ys', rfl, -, htail⟩ := h.exists_cons
      obtain ⟨hcode, h'⟩ := htail (ha x (by simp))
      obtain ⟨htake, hdrop⟩ := ih h' fun z hz => ha z (by simp [hz])
      exact ⟨by simp [hcode, htake], hdrop⟩

/-- An ASCII symbol of one text stands in the other too. -/
theorem exists_mem {xs : List α} {ys : List β} (h : Resembles xs ys) (y : β) (hy : y ∈ ys)
    (ha : Symbol.code y < 128) : ∃ x ∈ xs, Symbol.code x = Symbol.code y := by
  induction h with
  | nil => cases hy
  | @ascii x z xs ys same ascii h ih =>
    rcases List.mem_cons.mp hy with rfl | hy
    · exact ⟨x, by simp, same⟩
    · obtain ⟨x', hx, hcode⟩ := ih hy
      exact ⟨x', by simp [hx], hcode⟩
  | @other us vs xs ys hu hv hus hvs h ih =>
    rcases List.mem_append.mp hy with hy | hy
    · have hle := hvs y hy
      omega
    · obtain ⟨x, hx, hcode⟩ := ih hy
      exact ⟨x, by simp [hx], hcode⟩

end Resembles

namespace Pattern

/-- How much a pattern takes depends on the ASCII symbols alone. -/
theorem matchLength_of_resembles (ps : Pattern) (before : Option α) (before' : Option β)
    (xs : List α) (ys : List β) (hb : isWord before = isWord before') (h : Resembles xs ys) :
    matchLength ps before xs = matchLength ps before' ys := by
  fun_induction matchLength ps before xs generalizing before' ys with
  | case1 before xs => rw [matchLength]
  | case2 ps before xs hcond ih =>
    rw [matchLength, ← hb, ← h.isWord_head, if_pos hcond]
    exact ih before' ys hb h
  | case3 ps before xs hcond => rw [matchLength, ← hb, ← h.isWord_head, if_neg hcond]
  | case4 => rw [h.nil_iff.mp rfl, matchLength]
  | case5 c ps before x xs hx ih =>
    obtain ⟨y, ys', rfl, hclass, htail⟩ := h.exists_cons
    obtain ⟨-, h'⟩ := htail (c.lt_of_has x hx)
    rw [matchLength, ← hclass, if_pos hx, ih (some y) ys' (hclass .word) h']
  | case6 c ps before x xs hx =>
    obtain ⟨y, ys', rfl, hclass, -⟩ := h.exists_cons
    rw [matchLength, ← hclass, if_neg hx]
  | case7 c ps before ih =>
    have hy := h.nil_iff.mp rfl
    rw [ih before' ys hb h, hy, matchLength]
  | case8 c ps before x xs hx ih1 ih2 =>
    have h2 := ih2 before' ys hb h
    obtain ⟨y, ys', rfl, hclass, htail⟩ := h.exists_cons
    obtain ⟨-, h'⟩ := htail (c.lt_of_has x hx)
    rw [matchLength, ← hclass, if_pos hx, ih1 (some y) ys' (hclass .word) h', h2]
  | case9 c ps before x xs hx ih =>
    have h2 := ih before' ys hb h
    obtain ⟨y, ys', rfl, hclass, -⟩ := h.exists_cons
    rw [matchLength, ← hclass, if_neg hx, h2]

/-- The search passes over a stretch outside ASCII. -/
theorem matchesFrom_other (p : Pattern) (before : Option α) (us xs : List α)
    (hus : ∀ x ∈ us, 128 ≤ Symbol.code x) :
    p.matchesFrom before (us ++ xs) = p.matchesFrom (us.getLast?.or before) xs := by
  induction us generalizing before with
  | nil => rfl
  | cons u us ih =>
    have hno : ∀ n, matchLength p before (u :: (us ++ xs)) ≠ some (n + 1) := by
      intro n hn
      have hlt := ascii_of_matchLength p before _ _ hn u (by simp)
      have hle := hus u (by simp)
      omega
    have hnext := ih (some u) fun x hx => hus x (by simp [hx])
    rw [List.cons_append, matchesFrom_of_no_match p before u _ hno, hnext, List.getLast?_cons]
    cases us.getLast? <;> rfl

theorem isWord_getLast (us : List α) (before : Option α) (hu : us ≠ [])
    (hus : ∀ x ∈ us, 128 ≤ Symbol.code x) : isWord (us.getLast?.or before) = false := by
  obtain ⟨u, hl⟩ := Option.isSome_iff_exists.mp (List.getLast?_isSome.mpr hu)
  rw [hl]
  exact SymbolClass.word.not_has_of_le u (hus u (List.mem_of_getLast? hl))

theorem isWord_of_codes (x : Option α) (y : Option β)
    (h : x.map Symbol.code = y.map Symbol.code) : isWord x = isWord y := by
  cases x <;> cases y <;> simp_all [isWord, SymbolClass.has]

/-- What is found depends on the ASCII symbols alone. -/
theorem matchesFrom_of_resembles (p : Pattern) (before : Option α) (before' : Option β)
    (xs : List α) (ys : List β) (hb : isWord before = isWord before') (h : Resembles xs ys) :
    (p.matchesFrom before xs).map (List.map Symbol.code) =
      (p.matchesFrom before' ys).map (List.map Symbol.code) := by
  -- on the length, since a match jumps ahead
  induction hn : xs.length using Nat.strongRecOn generalizing before before' xs ys with
  | _ k ih =>
    subst hn
    cases h with
    | nil => simp [matchesFrom]
    | @ascii x y xs ys same ascii h =>
      have hm := matchLength_of_resembles p before before' _ _ hb (.ascii same ascii h)
      by_cases hmatch : ∃ n, p.matchLength before (x :: xs) = some (n + 1)
      · obtain ⟨n, hn⟩ := hmatch
        have ha := ascii_of_matchLength p before (x :: xs) (n + 1) hn
        obtain ⟨htake, hdrop⟩ := (Resembles.ascii same ascii h).split (n + 1) ha
        rw [List.take_succ_cons, List.take_succ_cons] at htake
        rw [List.drop_succ_cons, List.drop_succ_cons] at hdrop
        have hlast : isWord (x :: xs.take n).getLast? = isWord (y :: ys.take n).getLast? := by
          apply isWord_of_codes
          rw [← List.getLast?_map, ← List.getLast?_map, htake]
        have hlen : (xs.drop n).length < (x :: xs).length := by
          simp only [List.length_drop, List.length_cons]
          omega
        rw [matchesFrom_of_match p before x xs n hn,
          matchesFrom_of_match p before' y ys n (hm ▸ hn)]
        exact congrArg₂ List.cons htake (ih _ hlen _ _ _ _ hlast hdrop rfl)
      · have hno : ∀ n, p.matchLength before (x :: xs) ≠ some (n + 1) := not_exists.mp hmatch
        have hword : isWord (some x) = isWord (some y) := isWord_of_codes _ _ (by simp [same])
        rw [matchesFrom_of_no_match p before x xs hno,
          matchesFrom_of_no_match p before' y ys (hm ▸ hno)]
        exact ih xs.length (by simp) _ _ _ _ hword h rfl
    | @other us vs xs ys hu hv hus hvs h =>
      have hlen : xs.length < (us ++ xs).length := by
        have hpos := List.length_pos_iff.mpr hu
        rw [List.length_append]
        omega
      rw [matchesFrom_other p before us xs hus, matchesFrom_other p before' vs ys hvs]
      apply ih xs.length hlen _ _ _ _ ?_ h rfl
      rw [isWord_getLast us before hu hus, isWord_getLast vs before' hv hvs]

end Pattern
end CallGraph
