import CallGraph.Proofs.KeyMap
import CallGraph.Record.Decode

namespace CallGraph.Schema

variable {α : Type}

/-- The names of the four fields. -/
def names (s : Schema α) : List String := [s.package, s.lines, s.directory, s.table]

/-- The values of the table are read back as they were. -/
def Restores (s : Schema α) (r : Record α) : Prop :=
  ∀ e ∈ r.table.entries, s.decode (s.encode e.2) = .ok e.2

theorem decodeCount_nat (n : Nat) : decodeCount (.nat n) = .ok n := by
  rw [Json.nat, decodeCount, if_neg (by omega), Int.toNat_natCast]

def tableToJson (s : Schema α) (m : KeyMap α) : Json :=
  .obj (m.entries.map fun e => (e.1, s.encode e.2))

theorem foldlM_insert (s : Schema α) (es : List (String × α))
    (hes : ∀ e ∈ es, s.decode (s.encode e.2) = .ok e.2) (m : KeyMap α) :
    (es.map fun e => (e.1, s.encode e.2)).foldlM
      (fun m e => return m.insert e.1 (← s.decode e.2)) m =
        .ok (es.foldl (fun m e => m.insert e.1 e.2) m) := by
  induction es generalizing m with
  | nil => rfl
  | cons e es ih =>
    have he := hes e (by simp)
    have hrest := ih (fun e he => hes e (by simp [he])) (m.insert e.1 e.2)
    rw [List.map_cons, List.foldlM_cons, he]
    exact hrest

theorem decodeTable_tableToJson (s : Schema α) (r : Record α) (h : s.Restores r) :
    s.decodeTable (s.tableToJson r.table) = .ok r.table := by
  have hsorted : (r.table.entries.map fun e => (e.1, s.encode e.2)).Pairwise
      fun a b => Key.lt a.1 b.1 := List.pairwise_map.mpr r.table.sorted
  have htable : KeyMap.ofList r.table.entries = r.table :=
    KeyMap.ext (KeyMap.entries_ofList r.table.entries r.table.sorted)
  rw [tableToJson, decodeTable, KeyMap.entries_ofList _ hsorted, foldlM_insert s _ h]
  exact congrArg Except.ok htable

/-- The fields of a record that have been read under the names so far. -/
def progress (s : Schema α) (r : Record α) (read : List String) : Partial α where
  package := if s.package ∈ read then some r.package else none
  lines := if s.lines ∈ read then some r.lines else none
  directory := if s.directory ∈ read then some r.directory else none
  table := if s.table ∈ read then some r.table else none

def fields (s : Schema α) (r : Record α) : List (String × Json) :=
  [(s.package, .str r.package), (s.lines, .nat r.lines), (s.directory, .str r.directory),
    (s.table, s.tableToJson r.table)]

theorem toJson_eq_obj (s : Schema α) (r : Record α) : s.toJson r = .obj (s.fields r) := rfl

theorem readField_progress (s : Schema α) (hs : s.names.Nodup) (r : Record α) (hr : s.Restores r)
    (read : List String) (e : String × Json) (he : e ∈ s.fields r) :
    s.readField (s.progress r read) e = .ok (s.progress r (e.1 :: read)) := by
  simp only [names, List.nodup_cons, List.mem_cons, List.not_mem_nil, or_false, not_or] at hs
  obtain ⟨⟨hpl, hpd, hpt⟩, ⟨hld, hlt⟩, hdt, -⟩ := hs
  simp only [fields, List.mem_cons, List.not_mem_nil, or_false] at he
  rcases he with rfl | rfl | rfl | rfl
  · simp [readField, progress, decodeText, Ne.symm hpl, Ne.symm hpd, Ne.symm hpt]
  · simp [readField, progress, decodeCount_nat, hpl, Ne.symm hpl, Ne.symm hld, Ne.symm hlt]
  · simp [readField, progress, decodeText, hpd, Ne.symm hpd, hld, Ne.symm hld, Ne.symm hdt]
  · have htable := decodeTable_tableToJson s r hr
    simp [readField, progress, htable, hpt, Ne.symm hpt, hlt, Ne.symm hlt, hdt, Ne.symm hdt]

theorem foldlM_readField (s : Schema α) (hs : s.names.Nodup) (r : Record α) (hr : s.Restores r)
    (es : List (String × Json)) (hes : ∀ e ∈ es, e ∈ s.fields r) (read : List String) :
    es.foldlM s.readField (s.progress r read) =
      .ok (s.progress r ((es.map (·.1)).reverse ++ read)) := by
  induction es generalizing read with
  | nil => rfl
  | cons e es ih =>
    rw [List.foldlM_cons, readField_progress s hs r hr read e (hes e (by simp))]
    change es.foldlM s.readField (s.progress r (e.1 :: read)) = _
    rw [ih (fun e he => hes e (by simp [he])), List.map_cons, List.reverse_cons, List.append_assoc]
    rfl

/-- A record is read back from its object. -/
theorem decodeRecord_toJson (s : Schema α) (hs : s.names.Nodup) (r : Record α)
    (hr : s.Restores r) : s.decodeRecord (s.toJson r) = .ok r := by
  have hkeys : (s.fields r).map (·.1) = s.names := rfl
  have hperm := KeyMap.entries_ofList_perm (s.fields r) (by rwa [hkeys])
  have hread := foldlM_readField s hs r hr (KeyMap.ofList (s.fields r)).entries
    (fun e he => hperm.mem_iff.mp he) []
  have hall : ∀ name ∈ s.names,
      name ∈ (((KeyMap.ofList (s.fields r)).entries.map (·.1)).reverse ++ []) := by
    intro name hname
    rw [List.append_nil, List.mem_reverse, (hperm.map _).mem_iff, hkeys]
    exact hname
  have hstart : s.progress r [] = ⟨none, none, none, none⟩ := rfl
  rw [toJson_eq_obj, decodeRecord, decodeObject, ← hstart, hread]
  simp only [names, List.mem_cons, List.not_mem_nil, or_false, forall_eq_or_imp, forall_eq] at hall
  obtain ⟨hpackage, hlines, hdirectory, htable⟩ := hall
  simp only [progress, hpackage, hlines, hdirectory, htable, if_true]
  rfl

/-- A list of records is read back in its order. -/
theorem decodeList_listToJson (s : Schema α) (hs : s.names.Nodup) (rs : List (Record α))
    (hrs : ∀ r ∈ rs, s.Restores r) : s.decodeList (s.listToJson rs) = .ok rs := by
  change (rs.map s.toJson).mapM s.decodeRecord = .ok rs
  induction rs with
  | nil => rfl
  | cons r rs ih =>
    have hr := decodeRecord_toJson s hs r (hrs r (by simp))
    have hrest := ih fun r hr => hrs r (by simp [hr])
    rw [List.map_cons, List.mapM_cons, hr, hrest]
    rfl

end CallGraph.Schema
