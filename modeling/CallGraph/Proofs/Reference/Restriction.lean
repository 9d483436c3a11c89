import CallGraph.Proofs.Reference

namespace CallGraph.Language

variable {α : Type} [Symbol α]

def beforeDot (call : List α) : List α := call.takeWhile fun x => !SymbolClass.dot.has x

def behindDot (call : List α) : List α := (call.dropWhile fun x => !SymbolClass.dot.has x).tail

def isDigit (x : α) : Bool := SymbolClass.isDigit (Symbol.code x)

/-- No white space stands on either side of the dot of a call, and neither of its two names starts
with a digit. -/
def IsTight (call : List α) : Prop :=
  (∀ x ∈ (beforeDot call).head?, isDigit x = false) ∧
  (∀ x ∈ (beforeDot call).getLast?, SymbolClass.space.has x = false) ∧
  ∀ x ∈ (behindDot call).head?, SymbolClass.space.has x = false ∧ isDigit x = false

instance (call : List α) : Decidable (IsTight call) := inferInstanceAs (Decidable (_ ∧ _ ∧ _))

theorem beforeDot_append (front back : List α) (dot : α)
    (hfront : ∀ x ∈ front, SymbolClass.dot.has x = false) (hdot : SymbolClass.dot.has dot = true) :
    beforeDot (front ++ dot :: back) = front := by
  have hpass : ∀ x ∈ front, (!SymbolClass.dot.has x) = true := fun x hx => by simp [hfront x hx]
  rw [beforeDot, List.takeWhile_append_of_pos hpass]
  simp [hdot]

theorem behindDot_append (front back : List α) (dot : α)
    (hfront : ∀ x ∈ front, SymbolClass.dot.has x = false) (hdot : SymbolClass.dot.has dot = true) :
    behindDot (front ++ dot :: back) = back := by
  have hpass : ∀ x ∈ front, (!SymbolClass.dot.has x) = true := fun x hx => by simp [hfront x hx]
  rw [behindDot, List.dropWhile_append_of_pos hpass]
  simp [hdot]

theorem isName_plsql_iff (w : List α) :
    IsName .plsql w ↔ IsName .python w ∧ ∀ x ∈ w.head?, isDigit x = false := by
  simp only [IsName, reduceCtorEq, false_implies, and_true, forall_const, isDigit, and_assoc]

theorem isTight_iff (name gap gap' method tail : List α) (dot : α) (hname : IsName .python name)
    (hgap : IsGap .python gap) (hdot : SymbolClass.dot.has dot = true) (hgap' : IsGap .python gap')
    (hmethod : IsName .python method) :
    IsTight (name ++ (gap ++ dot :: (gap' ++ (method ++ tail)))) ↔
      gap = [] ∧ gap' = [] ∧ IsName .plsql name ∧ IsName .plsql method := by
  have hfront : ∀ x ∈ name ++ gap, SymbolClass.dot.has x = false := by
    intro x hx
    rcases List.mem_append.mp hx with hx | hx
    · exact not_dot_of_word x (hname.2.1 x hx)
    · exact not_dot_of_space x (hgap.1 x hx)
  rw [← List.append_assoc, IsTight, beforeDot_append _ _ dot hfront hdot,
    behindDot_append _ _ dot hfront hdot, isName_plsql_iff, isName_plsql_iff,
    List.head?_append_of_ne_nil name hname.1]
  constructor
  · rintro ⟨hfirst, hlast, hnext⟩
    have hnil : gap = [] := by
      rcases List.eq_nil_or_concat gap with rfl | ⟨g, x, rfl⟩
      · rfl
      · have hx := hgap.1 x (by simp)
        rw [hlast x (by simp)] at hx
        cases hx
    have hnil' : gap' = [] := by
      cases gap' with
      | nil => rfl
      | cons x g =>
        have hx := hgap'.1 x (by simp)
        rw [(hnext x rfl).1] at hx
        cases hx
    subst hnil'
    rw [List.nil_append, List.head?_append_of_ne_nil method hmethod.1] at hnext
    exact ⟨hnil, rfl, ⟨hname, hfirst⟩, hmethod, fun x hx => (hnext x hx).2⟩
  · rintro ⟨rfl, rfl, ⟨-, hfirst⟩, -, hsecond⟩
    rw [List.append_nil, List.nil_append, List.head?_append_of_ne_nil method hmethod.1]
    refine ⟨hfirst, ?_, ?_⟩
    · intro x hx
      exact not_space_of_word x (hname.2.1 x (List.mem_of_getLast? hx))
    · intro x hx
      exact ⟨not_space_of_word x (hmethod.2.1 x (List.mem_of_mem_head? hx)), hsecond x hx⟩

/-- The calls of PL/SQL are the tight ones among those of Python. -/
theorem isCall_plsql_iff (name call : List α) :
    IsCall .plsql name call ↔ IsCall .python name call ∧ IsTight call := by
  constructor
  · intro h
    cases h with
    | @intro gap gap' method blank dot paren hn hg hd hg' hm hb hp =>
      obtain rfl := hg.2 rfl
      obtain rfl := hg'.2 rfl
      have hn' := (isName_plsql_iff name).mp hn
      have hm' := (isName_plsql_iff method).mp hm
      have hnone : IsGap .python ([] : List α) := ⟨by simp, nofun⟩
      exact ⟨.intro hn'.1 hnone hd hnone hm'.1 hb hp,
        (isTight_iff name [] [] method _ dot hn'.1 hnone hd hnone hm'.1).mpr ⟨rfl, rfl, hn, hm⟩⟩
  · rintro ⟨h, ht⟩
    cases h with
    | @intro gap gap' method blank dot paren hn hg hd hg' hm hb hp =>
      obtain ⟨rfl, rfl, hn', hm'⟩ := (isTight_iff name gap gap' method _ dot hn hg hd hg' hm).mp ht
      have hnone : IsGap .plsql ([] : List α) := ⟨by simp, fun _ => rfl⟩
      exact .intro hn' hnone hd hnone hm' hb hp

theorem callAt_plsql_iff (text : List α) (i : Nat) (name call : List α) :
    CallAt .plsql text i name call ↔ CallAt .python text i name call ∧ IsTight call := by
  rw [CallAt, CallAt, isCall_plsql_iff]
  tauto

omit [Symbol α] in
theorem forall₂_filter {β γ : Type} {R S : β → γ → Prop} {p : β → Bool} {q : γ → Bool} {xs : List β}
    {ys : List γ} (h : List.Forall₂ R xs ys) (hpq : ∀ x y, R x y → p x = q y)
    (hS : ∀ x y, R x y → q y = true → S x y) : List.Forall₂ S (xs.filter p) (ys.filter q) := by
  induction h with
  | nil => exact .nil
  | @cons x y xs ys hr _ ih =>
    rw [List.filter_cons, List.filter_cons, hpq x y hr]
    by_cases hq : q y = true
    · rw [if_pos hq, if_pos hq]
      exact .cons (hS x y hr hq) ih
    · rw [if_neg hq, if_neg hq]
      exact ih

/-- A Python call takes nothing away from PL/SQL: a PL/SQL call is the Python call at its place. -/
theorem callsFrom_filter (text : List α) (k : Nat) (calls : List (List α))
    (h : CallsFrom .python text k calls) :
    CallsFrom .plsql text k (calls.filter fun call => IsTight call) := by
  classical
  obtain ⟨places, hp, hi, hf⟩ := h
  let strict (i : Nat) : Bool := decide (∃ name call, CallAt .plsql text i name call)
  refine ⟨places.filter strict, hp.filter strict, ?_, ?_⟩
  · intro i
    rw [List.mem_filter, hi, decide_eq_true_iff]
    constructor
    · rintro ⟨⟨hk, -⟩, hc⟩
      exact ⟨hk, hc⟩
    · rintro ⟨hk, name, call, hc⟩
      exact ⟨⟨hk, name, call, ((callAt_plsql_iff text i name call).mp hc).1⟩, name, call, hc⟩
  · refine forall₂_filter hf ?_ ?_
    · rintro i call ⟨name, hc⟩
      rw [decide_eq_decide]
      constructor
      · rintro ⟨name', call', hc'⟩
        obtain ⟨hpython, htight⟩ := (callAt_plsql_iff text i name' call').mp hc'
        rwa [(callAt_unique .python text i name name' call call' hc hpython).2]
      · intro htight
        exact ⟨name, call, (callAt_plsql_iff text i name call).mpr ⟨hc, htight⟩⟩
    · rintro i call ⟨name, hc⟩ htight
      exact ⟨name, (callAt_plsql_iff text i name call).mpr ⟨hc, of_decide_eq_true htight⟩⟩

theorem findAll_plsql (text : List α) :
    plsql.call.findAll text = (python.call.findAll text).filter fun call => IsTight call :=
  findAll_eq .plsql text _ (callsFrom_filter text 0 _ (callsFrom_findAll .python text))

end CallGraph.Language

namespace CallGraph.Reference

open CallGraph.Language

/-- What is found is the first names of the calls. -/
theorem forall₂_extract (l : Language) (text : String) :
    List.Forall₂ (fun call entry => l.IsCall entry.toList call) (l.call.findAll text.toList)
      (extract l text) := by
  obtain ⟨places, -, -, hf⟩ := l.callsFrom_findAll text.toList
  rw [extract, List.forall₂_map_right_iff, List.forall₂_same]
  intro call hmem
  obtain ⟨i, name, hc⟩ := exists_of_forall₂ hf call hmem
  rw [String.toList_ofList, qualifier_call l name call hc.2.1]
  exact hc.2.1

/-- What is found for PL/SQL is what is found for Python at the tight calls, the first name of each,
in the same order, and there are texts for which it is less. -/
theorem plsql_restricts_python :
    (∀ text : String,
      (extract .plsql text).Sublist (extract .python text) ∧
      extract .plsql text =
        ((python.call.findAll text.toList).filter fun call => IsTight call).map
          (fun call => .ofList (qualifier call)) ∧
      List.Forall₂ (fun call entry => IsCall .python entry.toList call)
        ((python.call.findAll text.toList).filter fun call => IsTight call)
        (extract .plsql text)) ∧
    ∃ text : String, extract .plsql text ≠ extract .python text := by
  refine ⟨?_, "9pkg.run(); pkg .run(); pkg. run(); pkg.9run();", by decide +kernel⟩
  intro text
  have heq : extract .plsql text =
      ((python.call.findAll text.toList).filter fun call => IsTight call).map
        fun call => .ofList (qualifier call) := by
    rw [extract, findAll_plsql]
  refine ⟨?_, heq, ?_⟩
  · rw [heq]
    exact List.filter_sublist.map _
  · rw [← findAll_plsql]
    apply (forall₂_extract .plsql text).imp
    intro call entry hc
    exact ((isCall_plsql_iff entry.toList call).mp hc).1

end CallGraph.Reference
