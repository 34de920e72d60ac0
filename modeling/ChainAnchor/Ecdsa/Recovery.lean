import ChainAnchor.Ecdsa.Signature

namespace ChainAnchor

open Curve

namespace Signature

/-- Two numbers of 32 bytes each, both of which must be scalars. -/
def ofCompact? (b : Bytes) : Option Signature :=
  let r := Bytes.toNatBE (b.take 32)
  let s := Bytes.toNatBE (b.drop 32)
  if h : r < order ∧ s < order then some ⟨⟨r, h.1⟩, ⟨s, h.2⟩⟩ else none

/-- The random point of a signature, as its recovery id tells. -/
def noncePoint? (sig : Signature) (id : Nat) : Option Point :=
  let x := if id / 2 = 1 then sig.r.val + order else sig.r.val
  if h : x < fieldPrime then Point.lift? ⟨x, h⟩ (id % 2 == 1) else none

def recover? (sig : Signature) (id : Nat) (z : Scalar) : Option Point :=
  if sig.r = 0 ∨ sig.s = 0 then none
  else match noncePoint? sig id with
    | none => none
    | some p =>
      let w := invert sig.r
      let q := Point.multiply (-(z * w)).val Point.generator
      match q.add (Point.multiply (sig.s * w).val p) with
      | .infinity => none
      | q => some q

end Signature

end ChainAnchor
