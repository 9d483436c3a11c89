import CallGraph.Proofs.Resemblance
import CallGraph.Text.Utf8
import Mathlib.Data.List.Induction
import Mathlib.Tactic.SplitIfs

namespace CallGraph.Utf8

/-- However a pending character goes on, it takes bytes outside ASCII and becomes a character outside
ASCII. -/
inductive Pending.Sound : Pending → Prop
  | last {value : Nat} {low high : UInt8} (hlow : 128 ≤ low.toNat)
      (h : ∀ b, low ≤ b → b ≤ high → 128 ≤ (Char.ofNat (value * 64 + b.toNat % 64)).toNat) :
      Sound ⟨value, low, high, 0⟩
  | more {value owed : Nat} {low high : UInt8} (hlow : 128 ≤ low.toNat)
      (h : ∀ b, low ≤ b → b ≤ high → Sound ⟨value * 64 + b.toNat % 64, 0x80, 0xBF, owed⟩) :
      Sound ⟨value, low, high, owed + 1⟩

theorem toNat_ofNat (n : Nat) (h : n.isValidChar) : (Char.ofNat n).toNat = n := by
  rw [Char.ofNat, dif_pos h]
  rfl

/-- Six more bits make a code point that is neither ASCII nor a surrogate nor too great. -/
theorem Pending.sound_last (value : Nat) (hlow : 2 ≤ value)
    (hgap : value < 0x360 ∨ 0x380 ≤ value) (hhigh : value < 0x4400) :
    Sound ⟨value, 0x80, 0xBF, 0⟩ := by
  refine .last (by decide) ?_
  intro b _ _
  have hb := Nat.mod_lt b.toNat (show 0 < 64 by decide)
  rw [toNat_ofNat]
  · omega
  · rw [Nat.isValidChar]
    omega

theorem Pending.sound_middle (value : Nat) (hlow : 16 ≤ value) (hhigh : value < 0x110) :
    Sound ⟨value, 0x80, 0xBF, 1⟩ := by
  refine .more (by decide) ?_
  intro b _ _
  have hb := Nat.mod_lt b.toNat (show 0 < 64 by decide)
  exact sound_last _ (by omega) (by omega) (by omega)

theorem Pending.sound_more (value owed lo hi : Nat) (low high : UInt8) (hlow : low.toNat = lo)
    (hhigh : high.toNat = hi) (hlo : 128 ≤ lo)
    (h : ∀ n, lo ≤ n → n ≤ hi → Sound ⟨value * 64 + n % 64, 0x80, 0xBF, owed⟩) :
    Sound ⟨value, low, high, owed + 1⟩ := by
  subst hlow hhigh
  refine .more hlo ?_
  intro b hl hh
  exact h b.toNat (UInt8.le_iff_toNat_le.mp hl) (UInt8.le_iff_toNat_le.mp hh)

theorem Lead.ofByte_ascii (b : UInt8) (h : b.toNat < 128) :
    ofByte b = .char (Char.ofNat b.toNat) := by
  have hb : b < 0x80 := UInt8.lt_iff_toNat_lt.mpr h
  rw [ofByte, if_pos hb]

/-- What a byte outside ASCII can announce. -/
inductive Lead.Other : Lead → Prop
  | invalid : Other .invalid
  | more {p : Pending} (h : p.Sound) : Other (.more p)

/-- The bounds of the second byte keep every character that a lead byte announces sound. -/
theorem Lead.ofByte_other (b : UInt8) (h : 128 ≤ b.toNat) : (ofByte b).Other := by
  unfold ofByte
  simp only [UInt8.lt_iff_toNat_lt, ← UInt8.toNat_inj, UInt8.toNat_ofNat]
  split_ifs with h1 h2 h3 h4 h5 h6 h7 h8 h9
  · omega
  · exact .invalid
  · exact .more (Pending.sound_last _ (by omega) (by omega) (by omega))
  -- three bytes
  · refine .more (Pending.sound_more 0 0 0xA0 0xBF _ _ rfl rfl (by decide) ?_)
    intro n hl hh
    exact Pending.sound_last _ (by omega) (by omega) (by omega)
  · refine .more (Pending.sound_more 13 0 0x80 0x9F _ _ rfl rfl (by decide) ?_)
    intro n hl hh
    exact Pending.sound_last _ (by omega) (by omega) (by omega)
  · refine .more (Pending.sound_more _ 0 0x80 0xBF _ _ rfl rfl (by decide) ?_)
    intro n hl hh
    exact Pending.sound_last _ (by omega) (by omega) (by omega)
  -- four bytes
  · refine .more (Pending.sound_more 0 1 0x90 0xBF _ _ rfl rfl (by decide) ?_)
    intro n hl hh
    exact Pending.sound_middle _ (by omega) (by omega)
  · refine .more (Pending.sound_more _ 1 0x80 0xBF _ _ rfl rfl (by decide) ?_)
    intro n hl hh
    exact Pending.sound_middle _ (by omega) (by omega)
  · refine .more (Pending.sound_more 4 1 0x80 0x8F _ _ rfl rfl (by decide) ?_)
    intro n hl hh
    exact Pending.sound_middle _ (by omega) (by omega)
  · exact .invalid

/-- Bytes that have been read, and the state they led to: what is done resembles them, but for the
bytes of the character under way. -/
inductive Reads (bs : Bytes) : State → Prop
  | between {done : List Char} (h : Resembles bs done.reverse) : Reads bs ⟨done, none⟩
  | within {done : List Char} {p : Pending} {front tail : Bytes} (split : bs = front ++ tail)
      (begun : tail ≠ []) (other : ∀ b ∈ tail, 128 ≤ b.toNat)
      (h : Resembles front done.reverse) (sound : p.Sound) : Reads bs ⟨done, some p⟩

/-- One character stands for a stretch of bytes, both outside ASCII. -/
theorem resembles_concat {front tail : Bytes} {done : List Char} (h : Resembles front done.reverse)
    (begun : tail ≠ []) (other : ∀ b ∈ tail, 128 ≤ b.toNat) (c : Char) (hc : 128 ≤ c.toNat) :
    Resembles (front ++ tail) (c :: done).reverse := by
  have hone : Resembles (tail ++ []) ([c] ++ []) :=
    .other begun (List.cons_ne_nil c []) other (List.forall_mem_singleton.mpr hc) .nil
  rw [List.append_nil, List.append_nil] at hone
  rw [List.reverse_cons]
  exact h.append hone

theorem reads_start (bs : Bytes) (done : List Char) (b : UInt8) (h : Resembles bs done.reverse) :
    Reads (bs ++ [b]) (.start done b) := by
  rw [State.start]
  by_cases hb : b.toNat < 128
  · have hcode : Symbol.code b = Symbol.code (Char.ofNat b.toNat) :=
      (toNat_ofNat b.toNat (.inl (by omega))).symm
    rw [Lead.ofByte_ascii b hb]
    refine .between ?_
    rw [List.reverse_cons]
    exact h.append (.ascii hcode hb .nil)
  · have hle : 128 ≤ b.toNat := by omega
    have hlead := Lead.ofByte_other b hle
    generalize Lead.ofByte b = lead at hlead
    cases hlead with
    | invalid =>
      exact .between (resembles_concat h (by simp) (by simpa using hle) replacement (by decide))
    | more hp => exact .within rfl (by simp) (by simpa using hle) h hp

theorem reads_extend (front tail : Bytes) (done : List Char) (p : Pending) (b : UInt8)
    (other : ∀ b ∈ tail, 128 ≤ b.toNat) (h : Resembles front done.reverse) (sound : p.Sound)
    (hlow : p.low ≤ b) (hhigh : b ≤ p.high) :
    Reads (front ++ tail ++ [b]) (.extend done p b) := by
  have htail : tail ++ [b] ≠ [] := by simp
  have hother : 128 ≤ b.toNat → ∀ c ∈ tail ++ [b], 128 ≤ c.toNat := by
    intro hb
    exact List.forall_mem_append.mpr ⟨other, by simpa using hb⟩
  rw [List.append_assoc]
  cases sound with
  | @last value low high hl hv =>
    have hb : 128 ≤ b.toNat := Nat.le_trans hl (UInt8.le_iff_toNat_le.mp hlow)
    exact .between (resembles_concat h htail (hother hb) _ (hv b hlow hhigh))
  | @more value owed low high hl hs =>
    have hb : 128 ≤ b.toNat := Nat.le_trans hl (UInt8.le_iff_toNat_le.mp hlow)
    exact .within rfl htail (hother hb) h (hs b hlow hhigh)

theorem reads_step (bs : Bytes) (s : State) (b : UInt8) (h : Reads bs s) :
    Reads (bs ++ [b]) (s.step b) := by
  cases h with
  | between h => exact reads_start bs _ b h
  | @within done p front tail split begun other h sound =>
    subst split
    rw [State.step]
    simp only
    split_ifs with hb
    · exact reads_extend front tail done p b other h sound hb.1 hb.2
    · exact reads_start _ _ b (resembles_concat h begun other replacement (by decide))

theorem reads_run (bs : Bytes) : Reads bs (bs.foldl State.step ⟨[], none⟩) := by
  induction bs using List.reverseRecOn with
  | nil => exact .between .nil
  | append_singleton bs b ih =>
    rw [List.foldl_append]
    exact reads_step bs _ b ih

/-- Decoding keeps the ASCII bytes, and each stretch of others becomes a stretch of characters outside
ASCII, whatever is wrong with it. -/
theorem resembles_decode (bs : Bytes) : Resembles bs (decode bs) := by
  have h := reads_run bs
  rw [decode]
  generalize bs.foldl State.step ⟨[], none⟩ = s at h
  cases h with
  | between h => exact h
  | @within done p front tail split begun other h sound =>
    rw [split]
    exact resembles_concat h begun other replacement (by decide)

/-- What a step adds to the characters does not depend on those that are done. -/
theorem step_frame (pending : Option Pending) (b : UInt8) :
    ∃ new next, ∀ done, State.step ⟨done, pending⟩ b = ⟨new ++ done, next⟩ := by
  have hstart : ∃ new next, ∀ done, State.start done b = ⟨new ++ done, next⟩ := by
    unfold State.start
    cases Lead.ofByte b with
    | char c => exact ⟨[c], none, fun _ => rfl⟩
    | more p => exact ⟨[], some p, fun _ => rfl⟩
    | invalid => exact ⟨[replacement], none, fun _ => rfl⟩
  cases pending with
  | none => exact hstart
  | some p =>
    by_cases hb : p.low ≤ b ∧ b ≤ p.high
    · obtain ⟨value, low, high, owed⟩ := p
      cases owed with
      | zero => exact ⟨[_], none, fun done => if_pos hb⟩
      | succ owed => exact ⟨[], some _, fun done => if_pos hb⟩
    · obtain ⟨new, next, h⟩ := hstart
      refine ⟨new ++ [replacement], next, ?_⟩
      intro done
      rw [List.append_assoc]
      exact (if_neg hb).trans (h (replacement :: done))

theorem finish_foldl (bs : Bytes) (done : List Char) (pending : Option Pending) :
    (bs.foldl State.step ⟨done, pending⟩).finish =
      done.reverse ++ (bs.foldl State.step ⟨[], pending⟩).finish := by
  induction bs generalizing done pending with
  | nil => cases pending <;> simp [State.finish]
  | cons b bs ih =>
    obtain ⟨new, next, h⟩ := step_frame pending b
    rw [List.foldl_cons, List.foldl_cons, h, h, ih, ih (new ++ [])]
    simp

/-- An ASCII byte ends whatever is under way. -/
theorem step_ascii (bs : Bytes) (s : State) (b : UInt8) (h : Reads bs s) (hb : b.toNat < 128) :
    s.step b = ⟨Char.ofNat b.toNat :: s.finish.reverse, none⟩ := by
  have hstart : ∀ done, State.start done b = ⟨Char.ofNat b.toNat :: done, none⟩ := by
    intro done
    rw [State.start, Lead.ofByte_ascii b hb]
  cases h with
  | @between done h =>
    rw [State.finish, List.reverse_reverse]
    exact hstart done
  | @within done p front tail split begun other h sound =>
    have hlow : 128 ≤ p.low.toNat := by cases sound <;> assumption
    have hno : ¬(p.low ≤ b ∧ b ≤ p.high) := by
      intro hp
      have hle := UInt8.le_iff_toNat_le.mp hp.1
      omega
    rw [State.finish, List.reverse_reverse]
    exact (if_neg hno).trans (hstart (replacement :: done))

/-- A text can be cut at an ASCII byte before it is decoded. -/
theorem decode_append (bs rest : Bytes) (b : UInt8) (hb : b.toNat < 128) :
    decode (bs ++ b :: rest) = decode bs ++ Char.ofNat b.toNat :: decode rest := by
  have hstep := step_ascii bs _ b (reads_run bs) hb
  rw [decode, List.foldl_append, List.foldl_cons, hstep, finish_foldl, List.reverse_cons,
    List.reverse_reverse, List.append_assoc]
  rfl

theorem ofString_ofList (cs : List Char) :
    Bytes.ofString (.ofList cs) = cs.flatMap String.utf8EncodeChar := by
  rw [Bytes.ofString, String.toByteArray_ofList, List.utf8Encode]
  simp

theorem encodeChar_ascii (c : Char) (h : c.toNat < 128) :
    String.utf8EncodeChar c = [UInt8.ofNat c.toNat] := by
  have hc : c.val.toNat ≤ 127 := Nat.le_of_lt_succ h
  rw [String.utf8EncodeChar]
  exact if_pos hc

theorem encodeChar_other (c : Char) (h : 128 ≤ c.toNat) :
    String.utf8EncodeChar c ≠ [] ∧ ∀ b ∈ String.utf8EncodeChar c, 128 ≤ b.toNat := by
  have hc : ¬c.val.toNat ≤ 127 := Nat.not_le_of_lt h
  rw [String.utf8EncodeChar]
  simp only [if_neg hc]
  split_ifs
  all_goals
    refine ⟨List.cons_ne_nil _ _, ?_⟩
    simp only [List.forall_mem_cons, List.not_mem_nil, false_imp_iff, implies_true, and_true,
      UInt8.toNat_ofNat']
    omega

theorem encode_other (cs : List Char) (hne : cs ≠ []) (ho : ∀ c ∈ cs, 128 ≤ c.toNat) :
    cs.flatMap String.utf8EncodeChar ≠ [] ∧
      ∀ b ∈ cs.flatMap String.utf8EncodeChar, 128 ≤ b.toNat := by
  constructor
  · obtain ⟨c, cs, rfl⟩ := List.exists_cons_of_ne_nil hne
    have hc := encodeChar_other c (ho c (by simp))
    simp [List.flatMap_cons, hc.1]
  · intro b hb
    obtain ⟨c, hc, hb⟩ := List.mem_flatMap.mp hb
    exact (encodeChar_other c (ho c hc)).2 b hb

theorem resembles_encode {bs : Bytes} {cs : List Char} (h : Resembles bs cs) :
    Resembles bs (Bytes.ofString (.ofList cs)) := by
  rw [ofString_ofList]
  induction h with
  | nil => exact .nil
  | @ascii b c bs cs same ascii h ih =>
    have same : b.toNat = c.toNat := same
    have hc : c.toNat < 128 := same ▸ ascii
    rw [List.flatMap_cons, encodeChar_ascii c hc, ← same, UInt8.ofNat_toNat]
    exact .ascii rfl ascii ih
  | @other us vs bs cs hu hv hus hvs h ih =>
    obtain ⟨hne, ho⟩ := encode_other vs hv hvs
    rw [List.flatMap_append]
    exact .other hu hne hus ho ih

end CallGraph.Utf8
