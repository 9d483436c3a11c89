import CallGraph.Path
import Mathlib.Data.List.Basic

namespace CallGraph

/-- A name that an entry of a directory can have. -/
def IsEntryName (n : Bytes) : Prop := n ≠ [] ∧ n ≠ [dot] ∧ n ≠ [dot, dot] ∧ slash ∉ n

instance (n : Bytes) : Decidable (IsEntryName n) := inferInstanceAs (Decidable (_ ∧ _))

theorem IsEntryName.ofPiece? {n : Bytes} (hn : IsEntryName n) :
    Component.ofPiece? n = some (.name n) := by
  obtain ⟨hempty, hdot, hdots, -⟩ := hn
  simp [Component.ofPiece?, hempty, hdot, hdots]

namespace Path

/-- The path of what lies below a directory, by the names on the way to it. -/
def below (p : Path) (names : List Bytes) : Path := names.foldl join p

/-- The bytes of the components, one after the other: what paths are ordered by. -/
def order (p : Path) : List Bytes := p.components.map Component.bytes

theorem join_cases (p : Path) (n : Bytes) :
    (p.bytes = [] ∧ (p.join n).bytes = n) ∨
    (∃ front, p.bytes = front ++ [slash] ∧ (p.join n).bytes = front ++ slash :: n) ∨
    (p.bytes ≠ [] ∧ (p.join n).bytes = p.bytes ++ slash :: n) := by
  cases hlast : p.bytes.getLast? with
  | none => exact .inl ⟨List.getLast?_eq_none_iff.mp hlast, by simp [join, hlast]⟩
  | some last =>
    by_cases hs : last = slash
    · subst hs
      obtain ⟨front, hfront⟩ := List.getLast?_eq_some_iff.mp hlast
      refine .inr (.inl ⟨front, hfront, ?_⟩)
      simp [join, hfront]
    · have hne : p.bytes ≠ [] := by
        intro h
        simp [h] at hlast
      exact .inr (.inr ⟨hne, by simp [join, hlast, hs]⟩)

theorem slash_not_mem_of_mem_splitOn (bs piece : Bytes) (h : piece ∈ bs.splitOn slash) :
    slash ∉ piece := by
  induction bs generalizing piece with
  | nil =>
    rw [List.splitOn_nil, List.mem_singleton] at h
    simp [h]
  | cons b bs ih =>
    rw [List.splitOn_cons_eq_if_modifyHead] at h
    by_cases hb : b = slash
    · rw [if_pos (beq_iff_eq.mpr hb)] at h
      obtain rfl | h := List.mem_cons.mp h
      · simp
      · exact ih piece h
    · rw [if_neg (by simpa using hb)] at h
      cases hs : bs.splitOn slash with
      | nil => exact absurd hs (List.splitOn_ne_nil _ _)
      | cons first rest =>
        rw [hs, List.modifyHead_cons] at h
        obtain rfl | h := List.mem_cons.mp h
        · have hfirst := ih first (by simp [hs])
          simp [hfirst, Ne.symm hb]
        · exact ih piece (by simp [hs, h])

/-- A name is one more piece, in place of the empty one after a slash at the end. -/
theorem pieces_join (p : Path) (hp : p.bytes ≠ []) (n : Bytes) (hn : slash ∉ n) :
    ∃ ps, ps ≠ [] ∧ (p.join n).pieces = ps ++ [n] ∧ (p.pieces = ps ∨ p.pieces = ps ++ [[]]) := by
  have hone : n.splitOn slash = [n] := List.splitOn_eq_singleton hn
  obtain ⟨hempty, -⟩ | ⟨front, hfront, hjoin⟩ | ⟨-, hjoin⟩ := join_cases p n
  · exact absurd hempty hp
  · refine ⟨front.splitOn slash, List.splitOn_ne_nil _ _, ?_, .inr ?_⟩
    · rw [pieces, hjoin, List.splitOn_append_cons_self, hone]
    · rw [pieces, hfront, List.splitOn_append_cons_self, List.splitOn_nil]
  · refine ⟨p.pieces, List.splitOn_ne_nil _ _, ?_, .inl rfl⟩
    rw [pieces, hjoin, List.splitOn_append_cons_self, hone]
    rfl

theorem isAbsolute_join (p : Path) (hp : p.bytes ≠ []) (n : Bytes) :
    (p.join n).isAbsolute = p.isAbsolute := by
  obtain ⟨hempty, -⟩ | ⟨front, hfront, hjoin⟩ | ⟨-, hjoin⟩ := join_cases p n
  · exact absurd hempty hp
  · rw [isAbsolute, isAbsolute, hjoin, hfront]
    cases front with
    | nil => rfl
    | cons b front => rfl
  · rw [isAbsolute, isAbsolute, hjoin, List.head?_append_of_ne_nil _ hp]

theorem components_join (p : Path) (n : Bytes) (hn : IsEntryName n) :
    (p.join n).components = p.components ++ [.name n] := by
  have hname : [n].filterMap Component.ofPiece? = [.name n] := by simp [hn.ofPiece?]
  have hnone : [([] : Bytes)].filterMap Component.ofPiece? = [] := rfl
  obtain ⟨hempty, hdot, -, hslash⟩ := hn
  by_cases hp : p.bytes = []
  · -- the name is the whole path
    have hjoin : p.join n = ⟨n⟩ := by simp [join, hp]
    have hhead : ¬n.head? = some slash := fun h => hslash (List.mem_of_head? h)
    have hnew : (⟨n⟩ : Path).pieces = [n] := List.splitOn_eq_singleton hslash
    have hold : p.pieces = [[]] := by rw [pieces, hp, List.splitOn_nil]
    simp [components, hjoin, hnew, hold, isAbsolute, hp, hhead, hdot, hname, hnone]
  · obtain ⟨ps, hps, hjoin, hold⟩ := pieces_join p hp n hslash
    have hhead : (p.join n).pieces.head? = p.pieces.head? := by
      obtain rfl | hold := hold
      · rw [hjoin, List.head?_append_of_ne_nil _ hps]
      · rw [hjoin, hold, List.head?_append_of_ne_nil _ hps, List.head?_append_of_ne_nil _ hps]
    have hnames : (p.join n).pieces.filterMap Component.ofPiece? =
        p.pieces.filterMap Component.ofPiece? ++ [.name n] := by
      rw [hjoin, List.filterMap_append, hname]
      obtain rfl | hold := hold
      · rfl
      · rw [hold, List.filterMap_append, hnone, List.append_nil]
    simp only [components, isAbsolute_join p hp, hhead, hnames]
    split
    · rfl
    · split <;> rfl

theorem components_below (p : Path) (names : List Bytes) (hn : ∀ n ∈ names, IsEntryName n) :
    (p.below names).components = p.components ++ names.map .name := by
  induction names generalizing p with
  | nil => simp [below]
  | cons n names ih =>
    have hrest := ih (p.join n) fun m hm => hn m (by simp [hm])
    have hfirst := components_join p n (hn n (by simp))
    calc (p.below (n :: names)).components
        = (p.join n).components ++ names.map Component.name := hrest
      _ = p.components ++ (n :: names).map Component.name := by simp [hfirst]

theorem order_below (p : Path) (names : List Bytes) (hn : ∀ n ∈ names, IsEntryName n) :
    (p.below names).order = p.order ++ names := by
  rw [order, components_below p names hn, List.map_append, List.map_map]
  change _ ++ names.map id = _
  rw [List.map_id]
  rfl

end Path
end CallGraph
