import ChainAnchor.Bytes.Digest
import ChainAnchor.Number.Error

namespace ChainAnchor

namespace Number

def quotient (a b : Int) : Except NumberError Int :=
  if b = 0 then .error .divisionByZero else .ok (a.tdiv b)

/-- The remainder that is never negative, whatever the signs. -/
def remainder (a b : Int) : Except NumberError Int :=
  if b = 0 then .error .divisionByZero else .ok (a % b)

def powerOfTwo (n : Nat) : Nat := Nat.pow 2 n

def shiftLeft (a : Int) (n : Nat) : Int := a * powerOfTwo n

/-- Values below the power of two, which includes every negative value, shift to zero. -/
def shiftRight (a : Int) (n : Nat) : Int := if a < powerOfTwo n then 0 else a / powerOfTwo n

def gcd (a b : Int) : Int := Nat.gcd a.natAbs b.natAbs

def bitLength (n : Nat) : Nat := if n = 0 then 0 else n.log2 + 1

def toUInt64 (a : Int) : UInt64 := UInt64.ofNat (min a.natAbs 0xFFFFFFFFFFFFFFFF)

def toUInt32 (a : Int) : UInt32 := UInt32.ofNat (min a.natAbs 0xFFFFFFFF)

def toInt32 (a : Int) : Int32 := Int32.ofInt (max (-0x80000000) (min a 0x7FFFFFFF))

def ofHash (h : Hash) : Int := Bytes.toNatLE h.bytes

def toHash (a : Int) : Hash := Digest.ofNatLE a.natAbs

def ofBytes (b : Bytes) : Int := Bytes.toNatBE b

def toBytes (a : Int) : Bytes := Bytes.minimalBE a.natAbs

end Number

end ChainAnchor
