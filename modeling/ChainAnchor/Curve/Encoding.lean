import ChainAnchor.Bytes.Digest
import ChainAnchor.Curve.Point

namespace ChainAnchor

namespace Curve

/-- How many bytes an encoding has that starts with a header; none for an unknown one. -/
def encodedLength (header : UInt8) : Nat :=
  if header = 2 ∨ header = 3 then 33
  else if header = 4 ∨ header = 6 ∨ header = 7 then 65
  else 0

namespace Point

def isOdd (y : Coordinate) : Bool := y.val % 2 == 1

def encode (compressed : Bool) : Point → Bytes
  | infinity => []
  | affine x y =>
    if compressed then (if isOdd y then 3 else 2) :: Bytes.ofNatBE 32 x.val
    else 4 :: (Bytes.ofNatBE 32 x.val ++ Bytes.ofNatBE 32 y.val)

def coordinate? (b : Bytes) : Option Coordinate :=
  let n := Bytes.toNatBE b
  if h : n < fieldPrime then some ⟨n, h⟩ else none

/-- The second coordinate may stand with a header for its parity, which must then agree. -/
def ofCoordinates? (header : UInt8) (x y : Coordinate) : Option Point :=
  if (header = 6 ∧ isOdd y) ∨ (header = 7 ∧ ¬isOdd y) then none
  else if onCurve x y then some (affine x y) else none

def decode? : Bytes → Option Point
  | [] => none
  | header :: rest =>
    if encodedLength header ≠ rest.length + 1 then none
    else match coordinate? (rest.take 32) with
      | none => none
      | some x =>
        if header = 2 ∨ header = 3 then lift? x (header = 3)
        else match coordinate? (rest.drop 32) with
          | none => none
          | some y => ofCoordinates? header x y

end Point

end Curve

end ChainAnchor
