import ChainAnchor.Proofs.Ecdsa.Der
import ChainAnchor.Proofs.Ecdsa.Nonce
import ChainAnchor.Proofs.Ecdsa.Signature
import ChainAnchor.Proofs.Key.Derivation

namespace ChainAnchor

open Curve Point

namespace PrivateKey

variable {k : PrivateKey} {h : Hash} {sig : Signature}

theorem publicKey_eq (hk : k.Usable) :
    k.publicKey = .ok (.ofPoint k.compressed (secretPoint k.secret)) := by
  rw [publicKey, point_eq_ok_iff.mpr ⟨hk, rfl⟩]

theorem signature_eq (hk : k.Usable) (hs : Signature.sign? k.secret h = some sig) :
    k.signature h = .ok sig := by
  rw [signature, scalar_eq_ok_iff.mpr ⟨hk, rfl⟩, hs]

theorem secretPoint_eq (secret : Digest 32) :
    secretPoint secret = multiply (Signature.scalarOf secret).val generator :=
  (multiply_generator_mod _).symm

theorem exists_solves (hs : Signature.sign? k.secret h = some sig) :
    (∃ nonce, sig.Solves (Signature.scalarOf k.secret) (Signature.scalarOf h) nonce) ∧
      isHigh sig.s = false := by
  obtain ⟨nonce, hm⟩ := Signature.exists_make?_of_sign? hs
  exact Signature.exists_solves_of_make? hm

/-- The public key verifies a signature that is written out and read back. -/
theorem verify_encode (hk : k.Usable) (hs : Signature.sign? k.secret h = some sig) :
    (PublicKey.ofPoint k.compressed (secretPoint k.secret)).verify h (Der.encode sig) = true := by
  obtain ⟨⟨nonce, hsolves⟩, hlow⟩ := exists_solves hs
  rw [PublicKey.verify, PublicKey.point?_ofPoint k.compressed (isOnCurve_secretPoint k.secret)
    (secretPoint_ne_infinity hk.isSecret), Der.decode?_encode]
  dsimp only
  rw [Signature.normalize_of_low hlow, secretPoint_eq]
  exact hsolves.verify hlow

end PrivateKey

theorem isSignatureElement_of_ne_zero {b : Bytes} {x : Scalar} {half : Bool}
    (hb : Bytes.toNatBE b = x.val) (hx : x ≠ 0) (hh : half = true → isHigh x = false) :
    isSignatureElement b half = true := by
  have hpos : 0 < x.val := Nat.pos_of_ne_zero fun h ↦ hx (Fin.ext h)
  have hlt := x.isLt
  rw [isSignatureElement, hb, Bool.and_eq_true, decide_eq_true_iff, decide_eq_true_iff]
  refine ⟨hpos, ?_⟩
  cases half with
  | false => exact Nat.le_sub_one_of_lt hlt
  | true =>
    have hlow := hh rfl
    rw [isHigh, decide_eq_false_iff_not] at hlow
    exact Nat.not_lt.mp hlow

namespace PrivateKey

/-- Where the search for a nonce ends, a key signs a digest: both numbers of the signature are in
range, the second one in the lower half, the reader finds both of them again, and the public key
verifies it, in whichever form it is. -/
theorem verify_sign (k : PrivateKey) (h : Hash) (hk : k.Usable)
    (hs : Signature.Signable k.secret h) :
    ∃ sig pub, k.sign h = .ok (Der.encode sig) ∧ k.publicKey = .ok pub ∧
      (∀ b, Bytes.toNatBE b = sig.r.val → isSignatureElement b false = true) ∧
      (∀ b, Bytes.toNatBE b = sig.s.val → isSignatureElement b true = true) ∧
      sig.s.val ≤ (order - 1) / 2 ∧ Der.decode? (Der.encode sig) = some sig ∧
      pub.verify h (Der.encode sig) = true := by
  obtain ⟨sig, hsig⟩ := Signature.signable_iff.mp hs
  obtain ⟨⟨nonce, hsolves⟩, hlow⟩ := exists_solves hsig
  have hhalf : (order - 1) / 2 = order / 2 := by decide
  refine ⟨sig, _, ?_, publicKey_eq hk,
    fun b hb ↦ isSignatureElement_of_ne_zero hb hsolves.r_ne fun hh ↦ (by cases hh),
    fun b hb ↦ isSignatureElement_of_ne_zero hb hsolves.s_ne fun _ ↦ hlow, ?_,
    Der.decode?_encode sig, verify_encode hk hsig⟩
  · rw [sign, signature_eq hk hsig]
  · rw [isHigh, decide_eq_false_iff_not, Nat.not_lt] at hlow
    rwa [hhalf]

def one (compressed : Bool) : PrivateKey := ⟨Digest.ofNatBE 1, true, compressed⟩

theorem usable_one (compressed : Bool) : (one compressed).Usable :=
  ⟨rfl, (by decide +kernel : isSecret (Digest.ofNatBE (n := 32) 1).bytes = true)⟩

theorem verify_sign_one :
    (one false).Usable ∧ Signature.Signable (one false).secret Digest.zero ∧
      ∃ sig pub, (one false).sign Digest.zero = .ok (Der.encode sig) ∧
        (one false).publicKey = .ok pub ∧
        (∀ b, Bytes.toNatBE b = sig.r.val → isSignatureElement b false = true) ∧
        (∀ b, Bytes.toNatBE b = sig.s.val → isSignatureElement b true = true) ∧
        sig.s.val ≤ (order - 1) / 2 ∧ Der.decode? (Der.encode sig) = some sig ∧
        pub.verify Digest.zero (Der.encode sig) = true :=
  ⟨usable_one false, Signature.signable_one,
    verify_sign (one false) Digest.zero (usable_one false) Signature.signable_one⟩

end PrivateKey

end ChainAnchor
