import CallGraph.KeyMap
import Mathlib.Data.List.Induction
import Mathlib.Data.List.Nodup
import Mathlib.Tactic.SplitIfs

namespace CallGraph

/-- Among entries with different keys, the first with a key is the only one. -/
theorem find?_key_eq_some_iff {κ α : Type} [DecidableEq κ] (es : List (κ × α))
    (hn : (es.map (·.1)).Nodup) (k : κ) (v : α) :
    (es.find? (·.1 = k)).map (·.2) = some v ↔ (k, v) ∈ es := by
  induction es with
  | nil => simp
  | cons e es ih =>
    obtain ⟨k', v'⟩ := e
    obtain ⟨hnew, hn⟩ := List.nodup_cons.mp hn
    by_cases hk : k' = k
    · subst hk
      have hno : (k', v) ∉ es := fun hm => hnew (List.mem_map.mpr ⟨_, hm, rfl⟩)
      simp [hno, eq_comm]
    · rw [List.find?_cons_of_neg (by simpa using hk), ih hn]
      simp [Ne.symm hk]

namespace KeyMap

variable {α : Type}

/-- The value of the first entry with a key. -/
def find (es : List (String × α)) (k : String) : Option α := (es.find? (·.1 = k)).map (·.2)

theorem find_cons (k' : String) (v : α) (es : List (String × α)) (k : String) :
    find ((k', v) :: es) k = if k' = k then some v else find es k := by
  by_cases h : k' = k <;> simp [find, h]

theorem find_eq_none (es : List (String × α)) (k : String) (h : ∀ e ∈ es, e.1 ≠ k) :
    find es k = none := by
  simpa [find] using h

theorem find_alterEntries (k : String) (f : Option α → α) (es : List (String × α))
    (hs : es.Pairwise fun a b => Key.lt a.1 b.1) (x : String) :
    find (alterEntries k f es) x = if k = x then some (f (find es k)) else find es x := by
  induction es with
  | nil => simp [alterEntries, find]
  | cons e es ih =>
    obtain ⟨k', v⟩ := e
    obtain ⟨hlt, hs⟩ := List.pairwise_cons.mp hs
    rw [alterEntries]
    by_cases hk : Key.lt k k'
    · -- all keys are greater than the new one
      have hnone : find ((k', v) :: es) k = none := by
        apply find_eq_none
        intro e he h
        subst h
        obtain rfl | he := List.mem_cons.mp he
        · exact Key.lt_irrefl _ hk
        · exact Key.lt_irrefl _ (Key.lt_trans hk (hlt e he))
      rw [if_pos hk, find_cons, hnone]
    · rw [if_neg hk]
      by_cases he : k = k'
      · subst he
        rw [if_pos rfl, find_cons, find_cons, find_cons, if_pos rfl]
        split_ifs <;> rfl
      · rw [if_neg he, find_cons, ih hs, find_cons, find_cons, if_neg (Ne.symm he)]
        split_ifs with h1 h2
        · exact absurd (h2.trans h1.symm) he
        · rfl
        · rfl
        · rfl

theorem get?_alter (m : KeyMap α) (k : String) (f : Option α → α) (x : String) :
    (m.alter k f).get? x = if k = x then some (f (m.get? k)) else m.get? x :=
  find_alterEntries k f m.entries m.sorted x

theorem mem_keys_iff (m : KeyMap α) (x : String) : x ∈ m.keys ↔ (m.get? x).isSome = true := by
  simp [keys, get?]

theorem alterEntries_perm (k : String) (f : Option α → α) (es : List (String × α))
    (hk : ∀ e ∈ es, e.1 ≠ k) : (alterEntries k f es).Perm ((k, f none) :: es) := by
  induction es with
  | nil => exact .refl _
  | cons e es ih =>
    obtain ⟨k', v⟩ := e
    have hne : k ≠ k' := fun h => hk (k', v) (by simp) h.symm
    have hes := ih fun e he => hk e (by simp [he])
    rw [alterEntries]
    by_cases hlt : Key.lt k k'
    · rw [if_pos hlt]
    · rw [if_neg hlt, if_neg hne]
      exact (hes.cons (k', v)).trans (.swap _ _ _)

theorem ofList_concat (es : List (String × α)) (e : String × α) :
    ofList (es ++ [e]) = (ofList es).insert e.1 e.2 := by
  rw [ofList, List.foldl_append]
  rfl

/-- A map made of entries with different keys holds all of them. -/
theorem entries_ofList_perm (es : List (String × α)) (hn : (es.map (·.1)).Nodup) :
    (ofList es).entries.Perm es := by
  induction es using List.reverseRecOn with
  | nil => exact .refl _
  | append_singleton es e ih =>
    rw [List.map_append, List.nodup_append] at hn
    obtain ⟨hn, -, hne⟩ := hn
    have hes := ih hn
    have hnew : ∀ x ∈ (ofList es).entries, x.1 ≠ e.1 := by
      intro x hx
      have hm : x.1 ∈ es.map (·.1) := List.mem_map_of_mem (hes.mem_iff.mp hx)
      exact hne x.1 hm e.1 (by simp)
    rw [ofList_concat]
    have hp := alterEntries_perm e.1 (fun _ => e.2) (ofList es).entries hnew
    exact hp.trans ((hes.cons e).trans (List.perm_append_singleton e es).symm)

theorem nodup_of_sorted (es : List (String × α)) (hs : es.Pairwise fun a b => Key.lt a.1 b.1) :
    (es.map (·.1)).Nodup := by
  apply List.pairwise_map.mpr
  apply hs.imp
  intro a b hab heq
  rw [heq] at hab
  exact Key.lt_irrefl _ hab

theorem eq_of_perm (es es' : List (String × α)) (hs : es.Pairwise fun a b => Key.lt a.1 b.1)
    (hs' : es'.Pairwise fun a b => Key.lt a.1 b.1) (hp : es.Perm es') : es = es' := by
  refine hp.eq_of_pairwise ?_ hs hs'
  intro a b ha hb hab hba
  exact absurd (Key.lt_trans hab hba) (Key.lt_irrefl _)

/-- Entries in increasing order of their keys are the entries of the map made of them. -/
theorem entries_ofList (es : List (String × α)) (hs : es.Pairwise fun a b => Key.lt a.1 b.1) :
    (ofList es).entries = es :=
  eq_of_perm _ _ (ofList es).sorted hs (entries_ofList_perm es (nodup_of_sorted es hs))

theorem find_eq_some_iff (es : List (String × α)) (hn : (es.map (·.1)).Nodup) (k : String) (v : α) :
    find es k = some v ↔ (k, v) ∈ es :=
  find?_key_eq_some_iff es hn k v

theorem get?_eq_some_iff (m : KeyMap α) (k : String) (v : α) :
    m.get? k = some v ↔ (k, v) ∈ m.entries :=
  find_eq_some_iff m.entries (nodup_of_sorted m.entries m.sorted) k v

/-- A map is known by what its keys lead to. -/
theorem ext_get? (m m' : KeyMap α) (h : ∀ k, m.get? k = m'.get? k) : m = m' := by
  have hkeys := nodup_of_sorted m.entries m.sorted
  have hkeys' := nodup_of_sorted m'.entries m'.sorted
  have hp : m.entries.Perm m'.entries := by
    rw [List.perm_ext_iff_of_nodup hkeys.of_map hkeys'.of_map]
    rintro ⟨k, v⟩
    rw [← get?_eq_some_iff, ← get?_eq_some_iff, h]
  exact KeyMap.ext (eq_of_perm _ _ m.sorted m'.sorted hp)

end KeyMap

end CallGraph
