namespace CallGraph

/-- Raw bytes, as they stand in a path or in a file. -/
abbrev Bytes := List UInt8

namespace Bytes

/-- The UTF-8 bytes of a text. -/
def ofString (s : String) : Bytes := s.toByteArray.data.toList

theorem ofString_injective {s t : String} (h : ofString s = ofString t) : s = t := by
  apply String.toByteArray_inj.1
  cases hs : s.toByteArray
  cases ht : t.toByteArray
  simp_all [ofString]

/-- Whether what is left of `a` from place `i` comes before what is left of `b`. -/
def ltFrom (a b : Array UInt8) (i : Nat) : Bool :=
  if ha : i < a.size then
    if hb : i < b.size then
      if a[i] = b[i] then ltFrom a b (i + 1) else decide (a[i] < b[i])
    else false
  else decide (i < b.size)
termination_by a.size - i

theorem drop_eq_cons {a : Array UInt8} {i : Nat} (h : i < a.size) :
    a.toList.drop i = a[i] :: a.toList.drop (i + 1) := by
  rw [List.drop_eq_getElem_cons (by simpa using h), Array.getElem_toList]

theorem drop_eq_nil {a : Array UInt8} {i : Nat} (h : ¬ i < a.size) : a.toList.drop i = [] :=
  List.drop_eq_nil_of_le (by simpa using h)

theorem ltFrom_iff (a b : Array UInt8) (i : Nat) :
    ltFrom a b i ↔ a.toList.drop i < b.toList.drop i := by
  fun_induction ltFrom a b i with
  | case1 i ha hb heq ih =>
    rw [drop_eq_cons ha, drop_eq_cons hb, ih, List.cons_lt_cons_iff]
    simp [heq]
  | case2 i ha hb hne =>
    rw [drop_eq_cons ha, drop_eq_cons hb, List.cons_lt_cons_iff]
    simp [hne]
  | case3 i ha hb =>
    rw [drop_eq_cons ha, drop_eq_nil hb]
    simp
  | case4 i ha =>
    by_cases hb : i < b.size
    · rw [drop_eq_nil ha, drop_eq_cons hb]
      simp [hb]
    · rw [drop_eq_nil ha, drop_eq_nil hb]
      simp [hb]

end Bytes

namespace Lines

def lineFeed : UInt8 := 0x0A

/-- What follows the first line: past its line feed, or nothing if it has none. -/
def next (bs : Bytes) : Bytes := (bs.dropWhile (· != lineFeed)).tail

theorem length_next_lt {bs : Bytes} (h : bs ≠ []) : (next bs).length < bs.length := by
  have hd := (bs.dropWhile_sublist (· != lineFeed)).length_le
  have := List.length_pos_iff.2 h
  simp only [next, List.length_tail]
  omega

/-- The number of lines: each ends with a line feed, and the last may do without one. -/
def count (bs : Bytes) : Nat :=
  if h : bs = [] then 0 else count (next bs) + 1
termination_by bs.length
decreasing_by exact length_next_lt h

end Lines
end CallGraph
