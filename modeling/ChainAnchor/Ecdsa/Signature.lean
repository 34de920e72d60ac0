import ChainAnchor.Bytes.Digest
import ChainAnchor.Curve.Point

namespace ChainAnchor

open Curve

structure Signature where
  r : Scalar
  s : Scalar
  deriving DecidableEq

namespace Signature

def scalarOf (h : Hash) : Scalar := Fin.ofNat order (Bytes.toNatBE h.bytes)

/-- Two numbers as a signature; if one is no scalar, both become zero, which verifies nothing. -/
def ofNumbers (r s : Nat) : Signature :=
  if h : r < order ∧ s < order then ⟨⟨r, h.1⟩, ⟨s, h.2⟩⟩ else ⟨0, 0⟩

def normalize (sig : Signature) : Signature :=
  if isHigh sig.s then { sig with s := -sig.s } else sig

def numbers (sig : Signature) : Bytes :=
  Bytes.ofNatBE 32 sig.r.val ++ Bytes.ofNatBE 32 sig.s.val

/-- The signature made with a random scalar, if both parts come out non-zero. -/
def make? (secret : Scalar) (z nonce : Scalar) : Option Signature :=
  match Point.multiply nonce.val Point.generator with
  | .infinity => none
  | .affine x _ =>
    let r := Fin.ofNat order x.val
    let s := invert nonce * (z + r * secret)
    if r = 0 ∨ s = 0 then none else some (normalize ⟨r, s⟩)

/-- The equation of a signature in the lower half, for the point of the key. -/
def verify (key : Point) (z : Scalar) (sig : Signature) : Bool :=
  if sig.r = 0 ∨ sig.s = 0 ∨ isHigh sig.s then false
  else
    let w := invert sig.s
    match (Point.multiply (z * w).val Point.generator).add (Point.multiply (sig.r * w).val key) with
    | .infinity => false
    | .affine x _ => Fin.ofNat order x.val == sig.r

end Signature

end ChainAnchor
