import ChainAnchor.Ecdsa.Nonce
import ChainAnchor.Proofs.Curve.Group

namespace ChainAnchor.Signature

open Curve Point
open scoped Fin.CommRing

variable {secret z nonce : Scalar} {sig : Signature}

/-- The order is odd, so of two opposite scalars one is high. -/
theorem isHigh_neg {s : Scalar} (hs : s ≠ 0) : isHigh (-s) = !isHigh s := by
  have hpos : 0 < s.val := Nat.pos_of_ne_zero fun h ↦ hs (Fin.ext h)
  have hlt := s.isLt
  have hodd : order % 2 = 1 := by decide
  rw [isHigh, isHigh, Fin.val_neg', Nat.mod_eq_of_lt (by omega), Bool.eq_iff_iff]
  simp only [Bool.not_eq_true', decide_eq_true_iff, decide_eq_false_iff_not]
  omega

theorem isHigh_normalize (sig : Signature) : isHigh sig.normalize.s = false := by
  rw [normalize]
  split
  next hs =>
    have hne : sig.s ≠ 0 := by
      rintro h0
      rw [h0] at hs
      cases hs
    simp [isHigh_neg hne, hs]
  next hs => exact Bool.eq_false_of_not_eq_true hs

theorem normalize_of_low (hs : isHigh sig.s = false) : sig.normalize = sig := by
  rw [normalize, hs]
  rfl

theorem normalize_neg (hs : sig.s ≠ 0) : normalize { sig with s := -sig.s } = sig.normalize := by
  rw [normalize, normalize, isHigh_neg hs]
  cases isHigh sig.s <;> simp

/-- Both parts are non-zero; the first one is the coordinate of the nonce's point, and the second
one solves the equation. -/
structure Solves (secret z nonce : Scalar) (sig : Signature) : Prop where
  r_eq : ∃ x y, multiply nonce.val generator = affine x y ∧ sig.r = Fin.ofNat order x.val
  s_eq : nonce * sig.s = z + sig.r * secret
  r_ne : sig.r ≠ 0
  s_ne : sig.s ≠ 0

/-- The nonces with the same coordinate are opposite, and so are the second parts. -/
theorem Solves.neg (hs : sig.Solves secret z nonce) :
    Solves secret z (-nonce) { sig with s := -sig.s } := by
  obtain ⟨x, y, hp, hr⟩ := hs.r_eq
  refine ⟨⟨x, -y, ?_, hr⟩, ?_, hs.r_ne, neg_ne_zero.mpr hs.s_ne⟩
  · rw [multiply_neg_generator, hp]
    rfl
  · rw [neg_mul_neg, hs.s_eq]

theorem Solves.normalize (hs : sig.Solves secret z nonce) :
    ∃ nonce', sig.normalize.Solves secret z nonce' := by
  rw [Signature.normalize]
  split
  · exact ⟨-nonce, hs.neg⟩
  · exact ⟨nonce, hs⟩

theorem exists_solves_of_make? (hm : make? secret z nonce = some sig) :
    (∃ nonce', sig.Solves secret z nonce') ∧ isHigh sig.s = false := by
  rw [make?] at hm
  split at hm
  · cases hm
  next x y hp =>
    -- only the multiple by zero is infinity, so the nonce has an inverse
    have hk : nonce ≠ 0 := by
      rintro rfl
      rw [(multiply_scalar_eq_infinity_iff 0).mpr rfl] at hp
      cases hp
    dsimp only at hm
    split at hm
    · cases hm
    next hne =>
      obtain ⟨hr, hs⟩ := not_or.mp hne
      cases hm
      have hsolves : Solves secret z nonce
          ⟨Fin.ofNat order x.val, invert nonce * (z + Fin.ofNat order x.val * secret)⟩ := by
        refine ⟨⟨x, y, hp, rfl⟩, ?_, hr, hs⟩
        rw [← mul_assoc, mul_invert order_prime hk, one_mul]
      exact ⟨hsolves.normalize, isHigh_normalize _⟩

theorem Solves.verify (hs : sig.Solves secret z nonce) (hl : isHigh sig.s = false) :
    Signature.verify (multiply secret.val generator) z sig = true := by
  obtain ⟨x, y, hp, hr⟩ := hs.r_eq
  have hw : sig.s * invert sig.s = 1 := mul_invert order_prime hs.s_ne
  -- the equation divided by the second part
  have hnonce : z * invert sig.s + sig.r * invert sig.s * secret = nonce := by
    linear_combination nonce * hw - invert sig.s * hs.s_eq
  have hlow : ¬(sig.r = 0 ∨ sig.s = 0 ∨ isHigh sig.s = true) := by
    simp [hs.r_ne, hs.s_ne, hl]
  rw [Signature.verify, if_neg hlow]
  dsimp only
  rw [add_multiply_scalar, hnonce, hp]
  exact beq_iff_eq.mpr hr.symm

end ChainAnchor.Signature
