import Mathlib.Data.List.Perm.Basic
import Mathlib.Tactic.Common

namespace CallGraph

/-- `out` comes of taking, again and again, the first item of any one of the lists; `rest` is what
is then left in them. -/
inductive Drawn {α : Type} (ls : List (List α)) : List α → List (List α) → Prop
  | start : Drawn ls [] ls
  | take {out : List α} {rest : List (List α)} {i : Nat} {x : α} {xs : List α}
      (h : Drawn ls out rest) (next : rest[i]? = some (x :: xs)) :
      Drawn ls (out ++ [x]) (rest.set i xs)

/-- All items of the lists, those of each list in their order. -/
def Interleaving {α : Type} (ls : List (List α)) (out : List α) : Prop :=
  ∃ rest, Drawn ls out rest ∧ ∀ l ∈ rest, l = []

variable {α : Type}

theorem perm_flatten_set (ls : List (List α)) (i : Nat) (x : α) (xs : List α)
    (hi : ls[i]? = some (x :: xs)) : ls.flatten.Perm (x :: (ls.set i xs).flatten) := by
  induction ls generalizing i with
  | nil => simp at hi
  | cons l ls ih =>
    cases i with
    | zero =>
      have hl : l = x :: xs := by simpa using hi
      simp [hl]
    | succ i =>
      have hp := ih i (by simpa using hi)
      rw [List.set_cons_succ, List.flatten_cons, List.flatten_cons]
      exact (hp.append_left l).trans List.perm_middle

/-- What has been taken and what is left are together what there was. -/
theorem Drawn.perm {ls : List (List α)} {out : List α} {rest : List (List α)}
    (h : Drawn ls out rest) : ls.flatten.Perm (out ++ rest.flatten) := by
  induction h with
  | start => exact List.Perm.refl _
  | @take out rest i x xs h next ih =>
    have hp := perm_flatten_set rest i x xs next
    rw [List.append_assoc, List.singleton_append]
    exact ih.trans (hp.append_left out)

theorem Drawn.length {ls : List (List α)} {out : List α} {rest : List (List α)}
    (h : Drawn ls out rest) : ls.flatten.length = out.length + rest.flatten.length := by
  rw [h.perm.length_eq, List.length_append]

theorem Interleaving.perm {ls : List (List α)} {out : List α} (h : Interleaving ls out) :
    out.Perm ls.flatten := by
  obtain ⟨rest, hd, he⟩ := h
  have hp := hd.perm
  rw [List.flatten_eq_nil_iff.mpr he, List.append_nil] at hp
  exact hp.symm

/-- A single list can only be taken from its front. -/
theorem Drawn.append_eq {l out : List α} {rest : List (List α)} (h : Drawn [l] out rest) :
    ∃ r, rest = [r] ∧ l = out ++ r := by
  induction h with
  | start => exact ⟨l, rfl, rfl⟩
  | @take out rest i x xs h next ih =>
    obtain ⟨r, hr, hl⟩ := ih
    subst hr
    cases i with
    | zero =>
      have hx : r = x :: xs := by simpa using next
      exact ⟨xs, rfl, by simp [hl, hx]⟩
    | succ i => simp at next

theorem Interleaving.eq_of_single {l out : List α} (h : Interleaving [l] out) : out = l := by
  obtain ⟨rest, hd, he⟩ := h
  obtain ⟨r, hr, hl⟩ := hd.append_eq
  rw [hl, he r (by simp [hr]), List.append_nil]

end CallGraph
