import CallGraph.Proofs.Text.Lines
import CallGraph.Proofs.Text.Utf8
import CallGraph.SourceFile

namespace CallGraph

/-- The character with the code of a byte. -/
def byteChar (b : UInt8) : Char := Char.ofNat b.toNat

theorem toNat_byteChar (b : UInt8) : (byteChar b).toNat = b.toNat := by
  have hb := b.toNat_lt
  exact Utf8.toNat_ofNat b.toNat (.inl (by omega))

theorem ofString_byteChar (bs : Bytes) (h : ∀ b ∈ bs, b.toNat < 128) :
    Bytes.ofString (.ofList (bs.map byteChar)) = bs := by
  rw [Utf8.ofString_ofList]
  induction bs with
  | nil => rfl
  | cons b bs ih =>
    have hb : (byteChar b).toNat < 128 := by
      rw [toNat_byteChar]
      exact h b (by simp)
    rw [List.map_cons, List.flatMap_cons, Utf8.encodeChar_ascii _ hb, toNat_byteChar,
      UInt8.ofNat_toNat, ih fun c hc => h c (by simp [hc])]
    rfl

namespace Reference

/-- What stands before the dot of a call, without the white space at the end. -/
def qualifierBytes (call : Bytes) : Bytes :=
  ((call.takeWhile (· != dot)).reverse.dropWhile SymbolClass.space.has).reverse

/-- The qualifiers of the calls that the pattern finds in raw bytes, in order. -/
def extractBytes (language : Language) (bs : Bytes) : List Bytes :=
  (language.call.findAll bs).map qualifierBytes

theorem dropWhile_congr {α : Type} (p q : α → Bool) (xs : List α) (h : ∀ x ∈ xs, p x = q x) :
    xs.dropWhile p = xs.dropWhile q := by
  induction xs with
  | nil => rfl
  | cons x xs ih =>
    rw [List.dropWhile_cons, List.dropWhile_cons, h x (by simp), ih fun y hy => h y (by simp [hy])]

theorem byteChar_ne_dot (b : UInt8) : (byteChar b != '.') = (b != dot) := by
  rw [Bool.eq_iff_iff, bne_iff_ne, bne_iff_ne, ne_eq, ne_eq, ← Char.toNat_inj, toNat_byteChar,
    ← UInt8.toNat_inj]
  rfl

theorem isBlank_byteChar (b : UInt8) (h : b.toNat < 128) :
    Text.isBlank (byteChar b) = SymbolClass.space.has b := by
  rw [Bool.eq_iff_iff]
  simp only [Text.isBlank, toNat_byteChar, SymbolClass.has, SymbolClass.hasCode, Symbol.code,
    Bool.or_eq_true, Bool.and_eq_true, decide_eq_true_eq, beq_iff_eq]
  omega

theorem qualifier_byteChar (call : Bytes) (h : ∀ b ∈ call, b.toNat < 128) :
    qualifier (call.map byteChar) = (qualifierBytes call).map byteChar := by
  have hdot : (fun c => c != '.') ∘ byteChar = fun b => b != dot := funext byteChar_ne_dot
  have hblank : ∀ b ∈ (call.takeWhile (· != dot)).reverse,
      (Text.isBlank ∘ byteChar) b = SymbolClass.space.has b := by
    intro b hb
    have hmem : b ∈ call := List.takeWhile_subset _ (List.mem_reverse.mp hb)
    exact isBlank_byteChar b (h b hmem)
  rw [qualifier, Text.before, Text.trimEnd, List.takeWhile_map, hdot, ← List.map_reverse,
    List.dropWhile_map, dropWhile_congr _ _ _ hblank, ← List.map_reverse, qualifierBytes]

theorem ascii_of_mem_findAll (language : Language) (bs call : Bytes)
    (h : call ∈ language.call.findAll bs) : ∀ b ∈ call, b.toNat < 128 :=
  Pattern.ascii_of_mem_matchesFrom language.call none bs call h

theorem ascii_qualifierBytes (call : Bytes) (h : ∀ b ∈ call, b.toNat < 128) :
    ∀ b ∈ qualifierBytes call, b.toNat < 128 := by
  intro b hb
  have hdrop := List.dropWhile_subset _ (List.mem_reverse.mp hb)
  exact h b (List.takeWhile_subset _ (List.mem_reverse.mp hdrop))

/-- Decoding neither makes nor hides nor changes a call. -/
theorem findAll_decode (language : Language) (bs : Bytes) :
    language.call.findAll (Utf8.decode bs) = (language.call.findAll bs).map (List.map byteChar) := by
  have h := Pattern.matchesFrom_of_resembles language.call none none bs (Utf8.decode bs) rfl
    (Utf8.resembles_decode bs)
  have hchar : List.map Char.ofNat ∘ List.map (Symbol.code : Char → Nat) = id := by
    funext cs
    have hid : Char.ofNat ∘ (Symbol.code : Char → Nat) = id := funext Char.ofNat_toNat
    rw [Function.comp_apply, List.map_map, hid, List.map_id, id_eq]
  have hbyte : List.map Char.ofNat ∘ List.map (Symbol.code : UInt8 → Nat) = List.map byteChar := by
    funext call
    rw [Function.comp_apply, List.map_map]
    rfl
  calc language.call.findAll (Utf8.decode bs)
      = ((language.call.findAll (Utf8.decode bs)).map (List.map Symbol.code)).map
          (List.map Char.ofNat) := by
        rw [List.map_map, hchar, List.map_id]
    _ = ((language.call.findAll bs).map (List.map Symbol.code)).map (List.map Char.ofNat) := by
        rw [Pattern.findAll, Pattern.findAll, h]
    _ = (language.call.findAll bs).map (List.map byteChar) := by
        rw [List.map_map, hbyte]

/-- The names extracted from decoded text are those that stand in the bytes. -/
theorem extract_text (language : Language) (bs : Bytes) :
    (extract language (Utf8.text bs)).map Bytes.ofString = extractBytes language bs := by
  rw [extract, Utf8.text, String.toList_ofList, findAll_decode, List.map_map, List.map_map,
    extractBytes]
  apply List.map_congr_left
  intro call hc
  have ha := ascii_of_mem_findAll language bs call hc
  simp only [Function.comp_apply]
  rw [qualifier_byteChar call ha, ofString_byteChar _ (ascii_qualifierBytes call ha)]

end Reference

/-- The references found in a file are those that the pattern finds in its bytes, where bytes outside
ASCII stand for nothing, and the lines of the decoded text are those of the bytes, whatever bytes these
are. -/
theorem lossy_scan_eq_raw_scan (language : Language) (path : Path) (bs : Bytes) :
    let scanned := ScannedFile.ofContent language path bs
    scanned.references.map Bytes.ofString = Reference.extractBytes language bs ∧
    (∀ (c : SymbolClass) (b : UInt8), 0x80 ≤ b.toNat → c.has b = false) ∧
    scanned.file.lines = Lines.count bs ∧
    Lines.count bs = Lines.count (Bytes.ofString (Utf8.text bs)) := by
  intro scanned
  refine ⟨Reference.extract_text language bs, ?_, rfl, ?_⟩
  · intro c b hb
    exact c.not_has_of_le b hb
  · exact Lines.count_of_resembles (Utf8.resembles_encode (Utf8.resembles_decode bs))

end CallGraph
