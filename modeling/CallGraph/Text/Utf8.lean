import CallGraph.Text.Bytes

namespace CallGraph.Utf8

/-- Stands for each longest stretch of bytes that begins a character and does not end one. -/
def replacement : Char := '�'

/-- The inside of a character: the value read so far, the bounds of the next byte, and the number
of bytes owed after that one. -/
structure Pending where
  value : Nat
  low : UInt8
  high : UInt8
  owed : Nat
  deriving DecidableEq

/-- What a byte that stands at the start of a character announces. -/
inductive Lead
  | char (c : Char)
  | more (p : Pending)
  | invalid

/-- The second byte is bounded so that no value is overlong, a surrogate or beyond the last code
point. -/
def Lead.ofByte (b : UInt8) : Lead :=
  if b < 0x80 then .char (Char.ofNat b.toNat)
  else if b < 0xC2 then .invalid
  else if b < 0xE0 then .more ⟨b.toNat % 32, 0x80, 0xBF, 0⟩
  else if b = 0xE0 then .more ⟨0, 0xA0, 0xBF, 1⟩
  else if b = 0xED then .more ⟨13, 0x80, 0x9F, 1⟩
  else if b < 0xF0 then .more ⟨b.toNat % 16, 0x80, 0xBF, 1⟩
  else if b = 0xF0 then .more ⟨0, 0x90, 0xBF, 2⟩
  else if b < 0xF4 then .more ⟨b.toNat % 8, 0x80, 0xBF, 2⟩
  else if b = 0xF4 then .more ⟨4, 0x80, 0x8F, 2⟩
  else .invalid

/-- The characters decoded so far, last first, and the one that is under way. -/
structure State where
  done : List Char
  pending : Option Pending

/-- Reads a byte at the start of a character. -/
def State.start (done : List Char) (b : UInt8) : State :=
  match Lead.ofByte b with
  | .char c => ⟨c :: done, none⟩
  | .more p => ⟨done, some p⟩
  | .invalid => ⟨replacement :: done, none⟩

/-- Reads a byte that the pending character accepts. -/
def State.extend (done : List Char) (p : Pending) (b : UInt8) : State :=
  let value := p.value * 64 + b.toNat % 64
  match p.owed with
  | 0 => ⟨Char.ofNat value :: done, none⟩
  | owed + 1 => ⟨done, some ⟨value, 0x80, 0xBF, owed⟩⟩

/-- A byte that the pending character refuses ends it and starts another. -/
def State.step (s : State) (b : UInt8) : State :=
  match s.pending with
  | none => .start s.done b
  | some p => if p.low ≤ b ∧ b ≤ p.high then .extend s.done p b else .start (replacement :: s.done) b

def State.finish (s : State) : List Char :=
  match s.pending with
  | none => s.done.reverse
  | some _ => (replacement :: s.done).reverse

def decode (bs : Bytes) : List Char := (bs.foldl State.step ⟨[], none⟩).finish

/-- The text of any bytes, valid or not. -/
def text (bs : Bytes) : String := .ofList (decode bs)

end CallGraph.Utf8
