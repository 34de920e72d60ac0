import ChainAnchor.Ecdsa.Signature

namespace ChainAnchor

namespace Der

def integerBody (n : Nat) : Bytes :=
  match Bytes.minimalBE n with
  | [] => [0]
  | x :: rest => if 0x80 ≤ x then 0 :: x :: rest else x :: rest

def tagged (tag : UInt8) (body : Bytes) : Bytes := tag :: UInt8.ofNat body.length :: body

def encode (sig : Signature) : Bytes :=
  tagged 0x30 (tagged 0x02 (integerBody sig.r.val) ++ tagged 0x02 (integerBody sig.s.val))

/-- A length at the front: below 128 it is its own byte, else the byte counts those it takes. -/
def takeLength : Bytes → Option (Nat × Bytes)
  | [] => none
  | x :: rest =>
    if x < 0x80 then some (x.toNat, rest)
    else
      let count := x.toNat - 0x80
      if rest.length < count then none
      else
        let digits := (rest.take count).dropWhile (· == 0)
        if 8 ≤ digits.length then none else some (Bytes.toNatBE digits, rest.drop count)

/-- Passes over the length of the whole without reading it. -/
def skipLength : Bytes → Option Bytes
  | [] => none
  | x :: rest =>
    if x < 0x80 then some rest
    else if rest.length < x.toNat - 0x80 then none else some (rest.drop (x.toNat - 0x80))

def takeInteger : Bytes → Option (Nat × Bytes)
  | [] => none
  | tag :: rest =>
    if tag ≠ 0x02 then none
    else match takeLength rest with
      | none => none
      | some (n, rest) =>
        if rest.length < n then none else some (Bytes.toNatBE (rest.take n), rest.drop n)

def readNumbers : Bytes → Option (Nat × Nat)
  | [] => none
  | tag :: rest =>
    if tag ≠ 0x30 then none
    else match (skipLength rest).bind takeInteger with
      | none => none
      | some (r, rest) => match takeInteger rest with
        | none => none
        | some (s, _) => some (r, s)

/-- Lenient: the length of the whole is not looked at, and whatever follows the two numbers is
ignored. -/
def decode? (b : Bytes) : Option Signature :=
  (readNumbers b).map fun p ↦ Signature.ofNumbers p.1 p.2

end Der

end ChainAnchor
