import CallGraph.Text.Bytes

namespace CallGraph

/-- The order of keys: by their UTF-8 bytes. -/
def Key.lt (a b : String) : Prop := Bytes.ofString a < Bytes.ofString b

namespace Key

instance (a b : String) : Decidable (lt a b) :=
  decidable_of_iff _ (Bytes.ltFrom_iff a.toByteArray.data b.toByteArray.data 0)

theorem lt_irrefl (a : String) : ¬ lt a a := List.lt_irrefl _

theorem lt_trans {a b c : String} (h : lt a b) (h' : lt b c) : lt a c := List.lt_trans h h'

theorem lt_of_not_lt {a b : String} (h : ¬ lt a b) (hne : a ≠ b) : lt b a := by
  rcases Classical.em (lt b a) with hb | hb
  · exact hb
  · exact absurd (Bytes.ofString_injective (List.le_antisymm (List.not_lt.1 hb) (List.not_lt.1 h))) hne

end Key

/-- A finite map with text keys, listed in increasing order of the keys. -/
@[ext] structure KeyMap (α : Type) where
  entries : List (String × α)
  sorted : entries.Pairwise (fun a b => Key.lt a.1 b.1)

namespace KeyMap

variable {α β : Type}

instance [DecidableEq α] : DecidableEq (KeyMap α) := fun m n =>
  decidable_of_iff (m.entries = n.entries) KeyMap.ext_iff.symm

def empty : KeyMap α := ⟨[], .nil⟩

instance : Inhabited (KeyMap α) := ⟨empty⟩

def keys (m : KeyMap α) : List String := m.entries.map (·.1)

def get? (m : KeyMap α) (k : String) : Option α :=
  (m.entries.find? (·.1 = k)).map (·.2)

/-- Gives the key `k` the value that `f` makes of its old one, in a sorted list of entries. -/
def alterEntries (k : String) (f : Option α → α) : List (String × α) → List (String × α)
  | [] => [(k, f none)]
  | (k', v) :: es =>
    if Key.lt k k' then (k, f none) :: (k', v) :: es
    else if k = k' then (k', f (some v)) :: es
    else (k', v) :: alterEntries k f es

theorem mem_alterEntries_key {k : String} {f : Option α → α} {es : List (String × α)}
    {e : String × α} (h : e ∈ alterEntries k f es) : e.1 = k ∨ ∃ e' ∈ es, e'.1 = e.1 := by
  induction es with
  | nil => simp_all [alterEntries]
  | cons x es ih =>
    obtain ⟨k', v⟩ := x
    simp only [alterEntries] at h
    grind

theorem alterEntries_sorted (k : String) (f : Option α → α) {es : List (String × α)}
    (h : es.Pairwise (fun a b => Key.lt a.1 b.1)) :
    (alterEntries k f es).Pairwise (fun a b => Key.lt a.1 b.1) := by
  induction es with
  | nil => simp [alterEntries]
  | cons x es ih =>
    obtain ⟨k', v⟩ := x
    have hx := List.pairwise_cons.1 h
    rw [alterEntries]
    split
    · next hlt =>
      refine List.pairwise_cons.2 ⟨fun e he => ?_, h⟩
      rcases List.mem_cons.1 he with rfl | he
      · exact hlt
      · exact Key.lt_trans hlt (hx.1 e he)
    · next hlt =>
      split
      · exact List.pairwise_cons.2 ⟨fun e he => hx.1 e he, hx.2⟩
      · next hne =>
        refine List.pairwise_cons.2 ⟨fun e he => ?_, ih hx.2⟩
        rcases mem_alterEntries_key he with hk | ⟨e', he', hk⟩
        · exact hk ▸ Key.lt_of_not_lt hlt hne
        · exact hk ▸ hx.1 e' he'

def alter (m : KeyMap α) (k : String) (f : Option α → α) : KeyMap α :=
  ⟨alterEntries k f m.entries, alterEntries_sorted k f m.sorted⟩

def insert (m : KeyMap α) (k : String) (v : α) : KeyMap α := m.alter k fun _ => v

/-- Of two entries with one key the later counts. -/
def ofList (es : List (String × α)) : KeyMap α := es.foldl (fun m e => m.insert e.1 e.2) empty

end KeyMap
end CallGraph
