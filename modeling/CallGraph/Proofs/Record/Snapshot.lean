import CallGraph.Proofs.Json.Printer
import CallGraph.Proofs.Json.Reader
import CallGraph.Proofs.Json.Real
import CallGraph.Proofs.Record.Decode
import CallGraph.Record.Schema

namespace CallGraph

/-- All counts of the record have 64 bits. -/
def FileRecord.Fits (r : FileRecord) : Prop :=
  r.lines < 2 ^ 64 ∧ ∀ e ∈ r.table.entries, e.2 < 2 ^ 64

/-- The count of the record has 64 bits, and its weights are finite. -/
def PackageRecord.Fits (r : PackageRecord) : Prop :=
  r.lines < 2 ^ 64 ∧ ∀ e ∈ r.table.entries, e.2.IsFinite

namespace Schema

variable {α : Type}

/-- The numbers of a record: its lines, and those in the values of the table. -/
theorem num_mem_toJson (s : Schema α) (r : Record α) (n : Json.Number) :
    .num n ∈ (s.toJson r).tokens ↔
      n = .int r.lines ∨ ∃ e ∈ r.table.entries, .num n ∈ (s.encode e.2).tokens := by
  rw [toJson, Json.num_mem_obj]
  simp [Json.num_mem_obj, Json.tokens, Json.nat]

/-- All numbers of a list of records read back if those in the tables do. -/
theorem readsBack_listToJson (s : Schema α) (rs : List (Record α))
    (hlines : ∀ r ∈ rs, r.lines < 2 ^ 64)
    (hvalues : ∀ r ∈ rs, ∀ e ∈ r.table.entries, ∀ n, .num n ∈ (s.encode e.2).tokens → n.ReadsBack)
    (n : Json.Number) (hn : .num n ∈ (s.listToJson rs).tokens) : n.ReadsBack := by
  rw [listToJson, Json.num_mem_arr] at hn
  obtain ⟨v, hv, hn⟩ := hn
  obtain ⟨r, hr, rfl⟩ := List.mem_map.mp hv
  obtain rfl | ⟨e, he, hn⟩ := (num_mem_toJson s r n).mp hn
  · exact Json.Number.readsBack_nat r.lines (hlines r hr)
  · exact hvalues r hr e he n hn

theorem files_names_nodup : files.names.Nodup := by decide

theorem files_restores (r : FileRecord) : files.Restores r := fun e _ => decodeCount_nat e.2

theorem files_readsBack (rs : List FileRecord) (hrs : ∀ r ∈ rs, r.Fits) (n : Json.Number)
    (hn : .num n ∈ (files.listToJson rs).tokens) : n.ReadsBack := by
  refine readsBack_listToJson files rs (fun r hr => (hrs r hr).1) ?_ n hn
  intro r hr e he n hn
  have hcount : n = .int e.2 := by simpa [files, Json.nat, Json.tokens] using hn
  subst hcount
  exact Json.Number.readsBack_nat e.2 ((hrs r hr).2 e he)

/-- A weight is the number nearest to what stands in the text, also where that is an integer. -/
theorem decodeWeight_nearest (n : Json.Number) (negative : Bool) (v : ℚ) (w : Weight)
    (h : n.StandsFor negative v) (hw : decodeWeight (.num n) = .ok w) :
    w.isNegative = negative ∧ w.IsNearest v := by
  cases n with
  | real x =>
    obtain rfl := Except.ok.inj hw
    exact h
  | int n =>
    obtain ⟨rfl, rfl⟩ := h
    rw [decodeWeight] at hw
    split at hw
    case h_1 x hx =>
      obtain rfl := Except.ok.inj hw
      have hnearest := Decimal.isNearest_of_nearest? _ _ x hx
      have hvalue : Weight.signed (decide (n < 0)) (Decimal.value ⟨n.natAbs, 0⟩) = n := by
        rw [Decimal.value, zpow_zero, mul_one, Weight.signed_natAbs]
      rwa [hvalue] at hnearest
    case h_2 => exact absurd hw (by simp)

theorem graph_names_nodup : graph.names.Nodup := by decide

theorem graph_restores (r : PackageRecord) : graph.Restores r := fun _ _ => rfl

theorem graph_readsBack (rs : List PackageRecord) (hrs : ∀ r ∈ rs, r.Fits) (n : Json.Number)
    (hn : .num n ∈ (graph.listToJson rs).tokens) : n.ReadsBack := by
  refine readsBack_listToJson graph rs (fun r hr => (hrs r hr).1) ?_ n hn
  intro r hr e he n hn
  have hweight : n = .real e.2 := by simpa [graph, Json.tokens] using hn
  subst hweight
  exact Json.Number.readsBack_real e.2 ((hrs r hr).2 e he)

end Schema

namespace Snapshot

theorem files_text_spelled (rs : List FileRecord) (hrs : ∀ r ∈ rs, r.Fits) :
    Json.Spelled (files rs).text.toList (Schema.files.listToJson rs) :=
  Json.spelled_pretty _ (Schema.files_readsBack rs hrs)

theorem decodeList_files (rs : List FileRecord) :
    Schema.files.decodeList (Schema.files.listToJson rs) = .ok rs :=
  Schema.decodeList_listToJson _ Schema.files_names_nodup rs fun r _ => Schema.files_restores r

/-- The text of the records of files is a JSON text, what is read from it gives the same records in
the same order, and so no other records have that text. -/
theorem files_text_reads_back (rs : List FileRecord) (hrs : ∀ r ∈ rs, r.Fits) :
    Json.Spelled (files rs).text.toList (Schema.files.listToJson rs) ∧
    (∃ v, Json.parse? (files rs).text = some v ∧ Schema.files.decodeList v = .ok rs) ∧
    ∀ rs' : List FileRecord, (∀ r ∈ rs', r.Fits) → (files rs').text = (files rs).text →
      rs' = rs := by
  have hspelled := files_text_spelled rs hrs
  have hparse := Json.parse?_of_spelled hspelled
  refine ⟨hspelled, ⟨_, hparse, decodeList_files rs⟩, ?_⟩
  intro rs' hrs' htext
  have hparse' := Json.parse?_of_spelled (files_text_spelled rs' hrs')
  rw [htext, hparse] at hparse'
  have hdecode := decodeList_files rs'
  rw [← Option.some.inj hparse', decodeList_files rs] at hdecode
  exact (Except.ok.inj hdecode).symm

/-- An empty name, quotes, escapes of every kind, characters beyond ASCII and the greatest count. -/
def oddRecords : List FileRecord :=
  [⟨"", 0, "", .empty⟩,
    ⟨"a\"b\\c/", 2 ^ 64 - 1, "\x00\x08\t\n\x0c\r\x1f\x7f",
      .ofList [("é😀", 2 ^ 64 - 1), ("", 0), ("\"", 10)]⟩]

theorem files_text_reads_back_odd : (∀ r ∈ oddRecords, r.Fits) ∧
    ∃ v, Json.parse? (files oddRecords).text = some v ∧
      Schema.files.decodeList v = .ok oddRecords := by
  have hfits : ∀ r ∈ oddRecords, r.Fits := by
    simp only [oddRecords, FileRecord.Fits]
    decide +kernel
  exact ⟨hfits, (files_text_reads_back oddRecords hfits).2.1⟩

theorem graph_text_spelled (rs : List PackageRecord) (hrs : ∀ r ∈ rs, r.Fits) :
    Json.Spelled (graph rs).text.toList (Schema.graph.listToJson rs) :=
  Json.spelled_pretty _ (Schema.graph_readsBack rs hrs)

theorem decodeList_graph (rs : List PackageRecord) :
    Schema.graph.decodeList (Schema.graph.listToJson rs) = .ok rs :=
  Schema.decodeList_listToJson _ Schema.graph_names_nodup rs fun r _ => Schema.graph_restores r

/-- The text of the records of packages is a JSON text, and what is read from it gives the same
records in the same order, every weight with the same bits. The reader takes a numeral for the
weight with its sign that is nearest to its exact value, a half going to even. -/
theorem graph_text_reads_back (rs : List PackageRecord) (hrs : ∀ r ∈ rs, r.Fits) :
    Json.Spelled (graph rs).text.toList (Schema.graph.listToJson rs) ∧
    (∃ v, Json.parse? (graph rs).text = some v ∧ Schema.graph.decodeList v = .ok rs) ∧
    ∀ cs negative v n w, Json.Denotes cs negative v → Json.Number.ofChars? cs = some n →
      Schema.decodeWeight (.num n) = .ok w → w.isNegative = negative ∧ w.IsNearest v := by
  have hspelled := graph_text_spelled rs hrs
  refine ⟨hspelled, ⟨_, Json.parse?_of_spelled hspelled, decodeList_graph rs⟩, ?_⟩
  intro cs negative v n w hcs hn hw
  have hstands := Json.standsFor_of_denotes cs negative v n hcs hn
  exact Schema.decodeWeight_nearest n negative v w hstands hw

/-- Both zeros, the least and the greatest subnormal number, the least normal one, powers of two,
the greatest number, and numbers on both sides of the change of notation. -/
def oddWeights : List PackageRecord :=
  [⟨"hub", 2 ^ 64 - 1, "\"dir\"", .ofList
    [("zero", ⟨0⟩), ("minus zero", ⟨0x8000000000000000⟩), ("least", ⟨1⟩),
      ("subnormal", ⟨0x000FFFFFFFFFFFFF⟩), ("normal", ⟨0x8010000000000000⟩),
      ("third", ⟨0x3FD5555555555555⟩), ("1e-5", ⟨0x3EE4F8B588E368F1⟩),
      ("1e-6", ⟨0x3EB0C6F7A0B5ED8D⟩), ("1e15", ⟨0x430C6BF526340000⟩),
      ("1e16", ⟨0x4341C37937E08000⟩), ("2^60", ⟨0x43B0000000000000⟩),
      ("greatest", ⟨0xFFEFFFFFFFFFFFFF⟩)]⟩,
    ⟨"", 0, "", .empty⟩]

theorem graph_text_reads_back_odd : (∀ r ∈ oddWeights, r.Fits) ∧
    ∃ v, Json.parse? (graph oddWeights).text = some v ∧
      Schema.graph.decodeList v = .ok oddWeights := by
  have hfits : ∀ r ∈ oddWeights, r.Fits := by
    simp only [oddWeights, PackageRecord.Fits]
    decide +kernel
  exact ⟨hfits, (graph_text_reads_back oddWeights hfits).2.1⟩

end Snapshot
end CallGraph
