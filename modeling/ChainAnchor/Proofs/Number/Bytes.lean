import ChainAnchor.Number.Arithmetic
import ChainAnchor.Proofs.Bytes

namespace ChainAnchor.Number

theorem toHash_ofHash (h : Hash) : toHash (ofHash h) = h := by
  have hb := Bytes.ofNatLE_toNatLE h.bytes
  rw [h.length_eq] at hb
  exact Digest.ext hb

theorem ofHash_toHash (a : Int) : ofHash (toHash a) = (a.natAbs % 2 ^ 256 : Nat) := by
  have hbits : 256 ^ 32 = 2 ^ 256 := rfl
  rw [ofHash, toHash, Digest.ofNatLE, Bytes.toNatLE_ofNatLE, hbits]

theorem toBytes_ofBytes (b : Bytes) : toBytes (ofBytes b) = b.dropWhile (· == 0) := by
  rw [toBytes, ofBytes, Int.natAbs_natCast, Bytes.minimalBE_toNatBE]

theorem ofBytes_toBytes (a : Int) : ofBytes (toBytes a) = a.natAbs := by
  rw [ofBytes, toBytes, Bytes.toNatBE_minimalBE]

theorem ofHash_eq (h : Hash) : ofHash h = ofBytes h.bytes.reverse := by
  rw [ofHash, ofBytes, Bytes.toNatBE_reverse]

theorem toHash_eq (a : Int) : toHash a = Digest.ofPrefix (toBytes a).reverse := by
  apply Digest.ext
  simp only [toHash, toBytes, Digest.ofNatLE, Digest.ofPrefix, Bytes.ofNatLE_eq,
    List.length_reverse]

/-- Hashes and byte strings are read as integers and written again.  Only the zeros above the first
digit, the sign and what a hash has no room for are lost, and both byte orders agree. -/
theorem bytes_exact (a : Int) (h : Hash) (b : Bytes) :
    toHash (ofHash h) = h ∧ ofHash (toHash a) = (a.natAbs % 2 ^ 256 : Nat) ∧
      toBytes (ofBytes b) = b.dropWhile (· == 0) ∧ ofBytes (toBytes a) = a.natAbs ∧
      ofHash h = ofBytes h.bytes.reverse ∧ toHash a = Digest.ofPrefix (toBytes a).reverse :=
  ⟨toHash_ofHash h, ofHash_toHash a, toBytes_ofBytes b, ofBytes_toBytes a, ofHash_eq h, toHash_eq a⟩

end ChainAnchor.Number
