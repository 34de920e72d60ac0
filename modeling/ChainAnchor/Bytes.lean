namespace ChainAnchor

abbrev Bytes := List UInt8

namespace Bytes

/-- The value with the most significant byte first. -/
def toNatBE (b : Bytes) : Nat := b.foldl (fun n x ↦ 256 * n + x.toNat) 0

/-- The value with the least significant byte first. -/
def toNatLE (b : Bytes) : Nat := b.foldr (fun x n ↦ 256 * n + x.toNat) 0

def ofNatLE : Nat → Nat → Bytes
  | 0, _ => []
  | width + 1, n => UInt8.ofNat n :: ofNatLE width (n / 256)

def ofNatBE (width n : Nat) : Bytes := (ofNatLE width n).reverse

/-- The bytes of a number above those of a tail, most significant first; zero adds none. -/
def consNat (n : Nat) (tail : Bytes) : Bytes :=
  if n = 0 then tail else consNat (n / 256) (UInt8.ofNat n :: tail)

/-- The fewest bytes that spell a number, most significant first. -/
def minimalBE (n : Nat) : Bytes := consNat n []

@[simp] theorem length_ofNatLE (width n : Nat) : (ofNatLE width n).length = width := by
  induction width generalizing n with
  | zero => rfl
  | succ w ih => simp [ofNatLE, ih]

@[simp] theorem length_ofNatBE (width n : Nat) : (ofNatBE width n).length = width := by
  simp [ofNatBE]

theorem toNatBE_reverse (b : Bytes) : toNatBE b.reverse = toNatLE b := by
  simp [toNatBE, toNatLE]

end Bytes

end ChainAnchor
