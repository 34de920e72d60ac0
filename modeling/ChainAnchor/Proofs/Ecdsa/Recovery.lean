import ChainAnchor.Ecdsa.Recovery
import ChainAnchor.Proofs.Curve.Encoding
import ChainAnchor.Proofs.Ecdsa.Signature

namespace ChainAnchor.Signature

open Curve Point
open scoped Fin.CommRing

variable {secret z nonce : Scalar} {sig : Signature} {id : Nat}

theorem ofCompact?_numbers (sig : Signature) : ofCompact? sig.numbers = some sig := by
  have hle : order ≤ 256 ^ 32 := by decide
  have hread (x : Scalar) : Bytes.toNatBE (Bytes.ofNatBE 32 x.val) = x.val :=
    Bytes.toNatBE_ofNatBE_of_lt (x.isLt.trans_le hle)
  have hr := Bytes.length_ofNatBE 32 sig.r.val
  simp only [ofCompact?, numbers, List.take_left' hr, List.drop_left' hr, hread, sig.r.isLt,
    sig.s.isLt, and_self, dite_true]

/-- A coordinate is less than twice the order, so adding the order undoes the reduction. -/
theorem val_eq_or_add_order (x : Coordinate) :
    (Fin.ofNat order x.val).val = x.val ∨ (Fin.ofNat order x.val).val + order = x.val := by
  have hx := x.isLt
  have hp : fieldPrime ≤ 2 * order := by decide
  rw [Fin.val_ofNat]
  by_cases hlt : x.val < order
  · exact Or.inl (Nat.mod_eq_of_lt hlt)
  · have hle := Nat.not_lt.mp hlt
    rw [Nat.mod_eq_sub_mod hle, Nat.mod_eq_of_lt (by omega), Nat.sub_add_cancel hle]
    exact Or.inr rfl

theorem noncePoint?_eq {x y : Coordinate} (hx : (if id / 2 = 1 then sig.r.val + order
    else sig.r.val) = x.val) (hy : (id % 2 == 1) = isOdd y) (h : onCurve x y = true) :
    sig.noncePoint? id = some (affine x y) := by
  rw [noncePoint?]
  simp only [hx, x.isLt, dite_true, hy]
  exact lift?_isOdd h

theorem Solves.exists_noncePoint? (hs : sig.Solves secret z nonce) :
    ∃ id < 4, sig.noncePoint? id = some (multiply nonce.val generator) := by
  obtain ⟨x, y, hp, hr⟩ := hs.r_eq
  have hcurve : onCurve x y = true := by
    have hc := isOnCurve_multiply_generator nonce.val
    rwa [hp] at hc
  have hparity : (isOdd y).toNat < 2 := Bool.toNat_lt _
  have hodd : ((isOdd y).toNat == 1) = isOdd y := by cases isOdd y <;> rfl
  rw [hp]
  -- ids from two on stand for a coordinate that the order was taken off
  rcases val_eq_or_add_order x with hx | hx
  · refine ⟨(isOdd y).toNat, by omega, noncePoint?_eq ?_ ?_ hcurve⟩
    · rw [if_neg (by omega), hr, hx]
    · rw [Nat.mod_eq_of_lt hparity, hodd]
  · refine ⟨2 + (isOdd y).toNat, by omega, noncePoint?_eq ?_ ?_ hcurve⟩
    · rw [if_pos (by omega), hr, hx]
    · rw [Nat.add_mod_left, Nat.mod_eq_of_lt hparity, hodd]

theorem Solves.recover? (hs : sig.Solves secret z nonce) (hsecret : secret ≠ 0)
    (hp : sig.noncePoint? id = some (multiply nonce.val generator)) :
    sig.recover? id z = some (multiply secret.val generator) := by
  have hw : sig.r * invert sig.r = 1 := mul_invert order_prime hs.r_ne
  -- the equation solved for the secret
  have hd : -(z * invert sig.r) + sig.s * invert sig.r * nonce = secret := by
    linear_combination invert sig.r * hs.s_eq + secret * hw
  have hne : ¬(sig.r = 0 ∨ sig.s = 0) := not_or.mpr ⟨hs.r_ne, hs.s_ne⟩
  rw [Signature.recover?, if_neg hne, hp]
  dsimp only
  rw [add_multiply_scalar, hd]
  split
  next hinf => exact absurd ((multiply_scalar_eq_infinity_iff secret).mp hinf) hsecret
  next => rfl

end ChainAnchor.Signature
