namespace CallGraph

/-- The weight of an edge: a binary64 number, held as its bits. -/
@[ext] structure Weight where
  bits : UInt64
  deriving DecidableEq, Inhabited

/-- What the bits of a weight, the sign apart, stand for. -/
inductive Magnitude
  /-- The number `significand * 2 ^ exponent`. -/
  | finite (significand : Nat) (exponent : Int)
  | infinite
  | nan
  deriving DecidableEq

namespace Weight

def zero : Weight := ⟨0⟩

def one : Weight := ⟨0x3FF0000000000000⟩

instance : Add Weight := ⟨fun a b => ⟨(Float.ofBits a.bits + Float.ofBits b.bits).toBits⟩⟩

/-- The place value of the sign. -/
def signBit : Nat := Nat.pow 2 63

/-- The place value of the last digit of the exponent, and of the leading digit that is not
stored. -/
def leadingBit : Nat := Nat.pow 2 52

def isNegative (w : Weight) : Bool := signBit ≤ w.bits.toNat

/-- The bits without the sign. They grow with the magnitude. -/
def body (w : Weight) : Nat := w.bits.toNat % signBit

/-- The body of the infinities. -/
def infiniteBody : Nat := 2047 * leadingBit

def ofBody (negative : Bool) (body : Nat) : Weight :=
  ⟨.ofNat (body + if negative then signBit else 0)⟩

def magnitudeOfBody (body : Nat) : Magnitude :=
  if body < leadingBit then .finite body (-1074)
  else if body < infiniteBody then
    .finite (body % leadingBit + leadingBit) (body / leadingBit - 1075)
  else if body = infiniteBody then .infinite
  else .nan

def magnitude (w : Weight) : Magnitude := magnitudeOfBody w.body

end Weight
end CallGraph
