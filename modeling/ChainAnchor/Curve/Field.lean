import ChainAnchor.Number.Modular

namespace ChainAnchor

namespace Curve

def fieldPrime : Nat := 0xFFFFFFFFFFFFFFFFFFFFFFFFFFFFFFFFFFFFFFFFFFFFFFFFFFFFFFFEFFFFFC2F

def order : Nat := 0xFFFFFFFFFFFFFFFFFFFFFFFFFFFFFFFEBAAEDCE6AF48A03BBFD25E8CD0364141

instance : @NeZero Nat Zero.ofOfNat0 fieldPrime := ⟨by decide⟩

instance : @NeZero Nat Zero.ofOfNat0 order := ⟨by decide⟩

abbrev Coordinate := Fin fieldPrime

abbrev Scalar := Fin order

/-- The inverse of a residue; zero, which has none, gives zero. -/
def invert {n : Nat} (x : Fin n) : Fin n :=
  ⟨(Modular.invert? n x.val).getD 0 % n, Nat.mod_lt _ x.pos⟩

/-- A square root if there is one: the modulus is three more than a multiple of four. -/
def squareRoot? (x : Coordinate) : Option Coordinate :=
  let y := Fin.ofNat fieldPrime (Modular.power fieldPrime x.val ((fieldPrime + 1) / 4))
  if y * y = x then some y else none

/-- A scalar in the upper half of the order. -/
def isHigh (s : Scalar) : Bool := order / 2 < s.val

end Curve

end ChainAnchor
