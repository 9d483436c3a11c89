import CallGraph.Proofs.Reference
import CallGraph.Proofs.Reference.Tally

namespace CallGraph.Language

variable {α : Type} [Symbol α]

/-- Nothing stands last in the text that a call could have in front of its parenthesis. -/
def Closed (text : List α) : Prop :=
  ∀ x ∈ text.getLast?, SymbolClass.word.has x = false ∧ SymbolClass.space.has x = false ∧
    SymbolClass.dot.has x = false

instance (text : List α) : Decidable (Closed text) := inferInstanceAs (Decidable (∀ x ∈ _, _))

theorem Closed.drop {text : List α} (h : Closed text) (i : Nat) : Closed (text.drop i) := by
  intro x hx
  rw [List.getLast?_drop] at hx
  split_ifs at hx with hi
  · cases hx
  · exact h x hx

theorem Closed.isWord {text : List α} (h : Closed text) : Pattern.isWord text.getLast? = false := by
  cases hx : text.getLast? with
  | none => rfl
  | some x => exact (h x hx).1

theorem IsCall.inner {l : Language} {name call : List α} (h : l.IsCall name call) :
    ∀ x ∈ call.dropLast, SymbolClass.word.has x = true ∨ SymbolClass.space.has x = true ∨
      SymbolClass.dot.has x = true := by
  cases h with
  | @intro gap gap' method blank dot paren hn hg hd hg' hm hb hp =>
    have he : name ++ (gap ++ dot :: (gap' ++ (method ++ (blank ++ [paren])))) =
        (name ++ (gap ++ dot :: (gap' ++ (method ++ blank)))) ++ [paren] := by simp
    intro x hx
    rw [he, List.dropLast_concat] at hx
    simp only [List.mem_append, List.mem_cons] at hx
    rcases hx with hx | hx | rfl | hx | hx | hx
    · exact .inl (hn.2.1 x hx)
    · exact .inr (.inl (hg.1 x hx))
    · exact .inr (.inr hd)
    · exact .inr (.inl (hg'.1 x hx))
    · exact .inl (hm.2.1 x hx)
    · exact .inr (.inl (hb x hx))

/-- A call that begins in a closed text ends in it. -/
theorem IsCall.prefix_of_closed {l : Language} {name call x y : List α} (h : l.IsCall name call)
    (hx : Closed x) (hne : x ≠ []) (hp : call <+: x ++ y) : call <+: x := by
  by_cases hle : call.length ≤ x.length
  · exact List.prefix_of_prefix_length_le hp (List.prefix_append x y) hle
  · obtain ⟨rest, rfl⟩ := List.prefix_of_prefix_length_le (List.prefix_append x y) hp (by omega)
    have hrest : rest ≠ [] := by
      rintro rfl
      simp at hle
    have hlast := List.getLast?_eq_some_getLast hne
    have hmem : x.getLast hne ∈ (x ++ rest).dropLast := by
      rw [List.dropLast_append_of_ne_nil hrest]
      exact List.mem_append_left _ (List.getLast_mem hne)
    obtain ⟨hword, hspace, hdot⟩ := hx _ hlast
    rcases h.inner _ hmem with hc | hc | hc
    · rw [hword] at hc
      cases hc
    · rw [hspace] at hc
      cases hc
    · rw [hdot] at hc
      cases hc

theorem callAt_append_left (l : Language) (x y : List α) (hx : Closed x) (i : Nat)
    (hi : i < x.length) (name call : List α) :
    CallAt l (x ++ y) i name call ↔ CallAt l x i name call := by
  have htake : (x ++ y).take i = x.take i := List.take_append_of_le_length (Nat.le_of_lt hi)
  have hdrop : (x ++ y).drop i = x.drop i ++ y := List.drop_append_of_le_length (Nat.le_of_lt hi)
  rw [CallAt, CallAt, htake, hdrop]
  constructor
  · rintro ⟨hb, hc, hp⟩
    have hne : x.drop i ≠ [] := by simpa using hi
    exact ⟨hb, hc, hc.prefix_of_closed (hx.drop i) hne hp⟩
  · rintro ⟨hb, hc, hp⟩
    exact ⟨hb, hc, hp.trans (List.prefix_append _ y)⟩

theorem callAt_append_right (l : Language) (x y : List α) (hx : Closed x) (j : Nat)
    (name call : List α) :
    CallAt l (x ++ y) (x.length + j) name call ↔ CallAt l y j name call := by
  have hbefore : Pattern.isWord (x ++ y.take j).getLast? = Pattern.isWord (y.take j).getLast? := by
    rw [List.getLast?_append]
    cases (y.take j).getLast? with
    | none => exact hx.isWord
    | some c => rfl
  rw [CallAt, CallAt, List.take_length_add_append, List.drop_length_add_append, hbefore]

theorem callsFrom_append (l : Language) (x y : List α) (hx : Closed x) (calls calls' : List (List α))
    (h : CallsFrom l x 0 calls) (h' : CallsFrom l y 0 calls') :
    CallsFrom l (x ++ y) 0 (calls ++ calls') := by
  obtain ⟨places, hp, hi, hf⟩ := h
  obtain ⟨places', hp', hi', hf'⟩ := h'
  have hlt : ∀ i ∈ places, i < x.length := by
    intro i hm
    obtain ⟨-, name, call, hc⟩ := (hi i).mp hm
    exact callAt_lt_length l x i name call hc
  refine ⟨places ++ places'.map (x.length + ·), ?_, ?_, ?_⟩
  · refine List.pairwise_append.mpr ⟨hp, ?_, ?_⟩
    · exact List.pairwise_map.mpr (hp'.imp fun h => by omega)
    · intro i hm j hm'
      obtain ⟨k, -, rfl⟩ := List.mem_map.mp hm'
      exact Nat.lt_of_lt_of_le (hlt i hm) (Nat.le_add_right _ _)
  · intro i
    rw [List.mem_append, List.mem_map]
    by_cases hlen : i < x.length
    · have hno : ¬ ∃ j ∈ places', x.length + j = i := by
        rintro ⟨j, -, hj⟩
        omega
      simp only [hno, or_false, hi, callAt_append_left l x y hx i hlen]
    · obtain ⟨j, rfl⟩ := Nat.exists_eq_add_of_le (Nat.le_of_not_lt hlen)
      have hno : x.length + j ∉ places := fun hm => hlen (hlt _ hm)
      simp only [hno, false_or, Nat.add_left_cancel_iff, exists_eq_right, hi',
        callAt_append_right l x y hx j, Nat.zero_le, true_and]
  · refine List.rel_append ?_ ?_
    · refine hf.imp ?_
      rintro i call ⟨name, hc⟩
      have hlen := callAt_lt_length l x i name call hc
      exact ⟨name, (callAt_append_left l x y hx i hlen name call).mpr hc⟩
    · rw [List.forall₂_map_left_iff]
      refine hf'.imp ?_
      rintro j call ⟨name, hc⟩
      exact ⟨name, (callAt_append_right l x y hx j name call).mpr hc⟩

theorem findAll_append (l : Language) (x y : List α) (hx : Closed x) :
    l.call.findAll (x ++ y) = l.call.findAll x ++ l.call.findAll y :=
  findAll_eq l _ _ (callsFrom_append l x y hx _ _ (callsFrom_findAll l x) (callsFrom_findAll l y))

theorem findAll_of_no_call (l : Language) (text : List α)
    (h : ∀ i name call, ¬CallAt l text i name call) : l.call.findAll text = [] := by
  refine findAll_eq l text [] ⟨[], .nil, ?_, .nil⟩
  intro i
  simp [h]

/-- One call stands in the text, and this is its first name. -/
def HoldsOneCall (l : Language) (text name : List α) : Prop :=
  ∃ i call, CallAt l text i name call ∧ ∀ j name' call', CallAt l text j name' call' → j = i

theorem HoldsOneCall.findAll {l : Language} {text name : List α} (h : HoldsOneCall l text name) :
    ∃ call, l.IsCall name call ∧ l.call.findAll text = [call] := by
  obtain ⟨i, call, hc, hone⟩ := h
  have hcalls : CallsFrom l text 0 [call] := by
    refine ⟨[i], List.pairwise_singleton _ i, ?_, .cons ⟨name, hc⟩ .nil⟩
    intro j
    rw [List.mem_singleton]
    constructor
    · intro hj
      subst hj
      exact ⟨Nat.zero_le j, name, call, hc⟩
    · intro hj
      obtain ⟨-, name', call', hc'⟩ := hj
      exact hone j name' call' hc'
  exact ⟨call, hc.2.1, findAll_eq l text _ hcalls⟩

/-- A name that PL/SQL allows is a name in each language. -/
theorem isName_of_nameStart (l : Language) (x : α) (w : List α)
    (hx : SymbolClass.nameStart.has x = true) (hw : w.all SymbolClass.word.has = true) :
    l.IsName (x :: w) := by
  have hname := (isName_cons_plsql x w).mpr ⟨hx, List.all_eq_true.mp hw⟩
  exact ⟨hname.1, hname.2.1, fun _ => hname.2.2 rfl⟩

/-- Behind a call and without word symbols, no other call begins. -/
theorem IsCall.holdsOneCall {l : Language} {name call : List α} (h : l.IsCall name call)
    (rest : List α) (hrest : ∀ x ∈ rest, SymbolClass.word.has x = false) :
    HoldsOneCall l (call ++ rest) name := by
  have hc : CallAt l (call ++ rest) 0 name call := ⟨rfl, h, List.prefix_append call rest⟩
  refine ⟨0, call, hc, ?_⟩
  intro j name' call' hc'
  by_contra hj
  have hlen := callAt_apart l _ 0 j _ _ _ _ hc hc' (by omega)
  obtain ⟨k, rfl⟩ := Nat.exists_eq_add_of_le hlen
  obtain ⟨tail, ht⟩ := hc'.2.2
  rw [Nat.zero_add, List.drop_length_add_append] at ht
  have hword := hc'.2.1.isWord_head tail
  rw [ht, List.head?_drop] at hword
  cases hx : rest[k]? with
  | none =>
    rw [hx] at hword
    cases hword
  | some x =>
    rw [hx] at hword
    have hno := hrest x (List.mem_of_getElem? hx)
    rw [show SymbolClass.word.has x = true from hword] at hno
    cases hno

end CallGraph.Language

namespace CallGraph.Reference

open CallGraph.Language

theorem extract_append (l : Language) (x y : String) (hx : Closed x.toList) :
    extract l (x ++ y) = extract l x ++ extract l y := by
  rw [extract, String.toList_append, findAll_append l _ _ hx, List.map_append]
  rfl

theorem extract_empty (l : Language) : extract l "" = [] := by
  rw [extract, String.toList_empty, Pattern.findAll, Pattern.matchesFrom, List.map_nil]

theorem extract_join (l : Language) (blocks : List String) (h : ∀ b ∈ blocks, Closed b.toList) :
    extract l (String.join blocks) = blocks.flatMap (extract l) := by
  induction blocks with
  | nil => exact extract_empty l
  | cons b blocks ih =>
    have hrest := ih fun c hc => h c (by simp [hc])
    rw [String.join_cons, extract_append l b _ (h b (by simp)), hrest, List.flatMap_cons]

theorem extract_of_one_call (l : Language) (text name : String)
    (h : HoldsOneCall l text.toList name.toList) : extract l text = [name] := by
  obtain ⟨call, hc, hfind⟩ := h.findAll
  rw [extract, hfind, List.map_singleton, qualifier_call l name.toList call hc, String.ofList_toList]

/-- Behind a symbol that is no word symbol, no white space and no dot, a text can be cut: what is
found in the two parts is what is found in the whole, and the tallies add up. Nothing is found where
there is no call, and blocks with one call of a name each give that name as often as there are
blocks. -/
theorem extract_composes (l : Language) :
    (∀ x y : String, Closed x.toList →
      extract l (x ++ y) = extract l x ++ extract l y ∧
      ∀ name, (tally (extract l (x ++ y))).get? name =
        Option.merge (· + ·) ((tally (extract l x)).get? name)
          ((tally (extract l y)).get? name)) ∧
    (∀ text : String, (∀ i name call, ¬CallAt l text.toList i name call) → extract l text = []) ∧
    ∀ (name : String) (blocks : List String),
      (∀ b ∈ blocks, Closed b.toList ∧ HoldsOneCall l b.toList name.toList) →
      extract l (String.join blocks) = List.replicate blocks.length name := by
  refine ⟨?_, ?_, ?_⟩
  · intro x y hx
    have happ := extract_append l x y hx
    refine ⟨happ, ?_⟩
    intro name
    rw [happ, get?_tally_append]
  · intro text h
    rw [extract, findAll_of_no_call l text.toList h, List.map_nil]
  · intro name blocks h
    have hblocks : ∀ b ∈ blocks, extract l b = [name] :=
      fun b hb => extract_of_one_call l b name (h b hb).2
    rw [extract_join l blocks fun b hb => (h b hb).1, List.flatMap_congr hblocks,
      ← List.map_eq_flatMap, List.map_const']

/-- A cut behind a call that comes to nothing, and for each language a block that is repeated. -/
theorem extract_composes_calls :
    (Closed "p.q(r.s;".toList ∧ extract .python ("p.q(r.s;" ++ ".t(u.v(") =
      extract .python "p.q(r.s;" ++ extract .python ".t(u.v(") ∧
    ((∀ b ∈ List.replicate 3 "svc . call ();",
        Closed b.toList ∧ HoldsOneCall .python b.toList "svc".toList) ∧
      extract .python (String.join (List.replicate 3 "svc . call ();")) = ["svc", "svc", "svc"]) ∧
    (∀ b ∈ List.replicate 3 "svc.call();",
        Closed b.toList ∧ HoldsOneCall .plsql b.toList "svc".toList) ∧
      extract .plsql (String.join (List.replicate 3 "svc.call();")) = ["svc", "svc", "svc"] := by
  have hcut : Closed "p.q(r.s;".toList := by decide
  have hname : ∀ l : Language, l.IsName "svc".toList :=
    fun l => isName_of_nameStart l 's' ['v', 'c'] (by decide) (by decide)
  have hmethod : ∀ l : Language, l.IsName "call".toList :=
    fun l => isName_of_nameStart l 'c' ['a', 'l', 'l'] (by decide) (by decide)
  have hspace : ∀ x ∈ [' '], SymbolClass.space.has x = true := List.all_eq_true.mp (by decide)
  have hrest : ∀ x ∈ [')', ';'], SymbolClass.word.has x = false := by
    simp only [List.forall_mem_cons]
    exact ⟨by decide, by decide, List.forall_mem_nil _⟩
  have hgap : IsGap .python [' '] := ⟨hspace, nofun⟩
  have hnone : IsGap .plsql ([] : List Char) := ⟨by simp, fun _ => rfl⟩
  have hdot : SymbolClass.dot.has '.' = true := by decide
  have hparen : SymbolClass.openParen.has '(' = true := by decide
  have hpython : HoldsOneCall .python "svc . call ();".toList "svc".toList :=
    (IsCall.intro (hname _) hgap hdot hgap (hmethod _) hspace hparen).holdsOneCall _ hrest
  have hplsql : HoldsOneCall .plsql "svc.call();".toList "svc".toList :=
    (IsCall.intro (hname _) hnone hdot hnone (hmethod _) (List.forall_mem_nil _)
      hparen).holdsOneCall _ hrest
  have hrepeat : ∀ (l : Language) (b : String), Closed b.toList →
      HoldsOneCall l b.toList "svc".toList → ∀ c ∈ List.replicate 3 b,
        Closed c.toList ∧ HoldsOneCall l c.toList "svc".toList := by
    intro l b hb hone c hc
    rw [List.eq_of_mem_replicate hc]
    exact ⟨hb, hone⟩
  have hblocks := hrepeat .python _ (by decide) hpython
  have hblocks' := hrepeat .plsql _ (by decide) hplsql
  exact ⟨⟨hcut, ((extract_composes .python).1 _ _ hcut).1⟩,
    ⟨hblocks, (extract_composes .python).2.2 "svc" _ hblocks⟩,
    hblocks', (extract_composes .plsql).2.2 "svc" _ hblocks'⟩

end CallGraph.Reference
