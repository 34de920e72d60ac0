import ChainAnchor.Curve.Encoding
import ChainAnchor.Proofs.Bytes
import ChainAnchor.Proofs.Curve.Field
import Mathlib.FieldTheory.Finite.Basic

namespace ChainAnchor.Curve

open scoped Fin.CommRing

variable {x y : Coordinate}

theorem val_pow (x : Coordinate) (e : Nat) : (x ^ e).val = x.val ^ e % fieldPrime := by
  induction e with
  | zero => rw [pow_zero, Nat.pow_zero, Fin.val_one']
  | succ e ih => rw [pow_succ, Fin.val_mul, ih, Nat.mod_mul_mod, Nat.pow_succ]

/-- A square has the root that its power by a quarter of the modulus is. -/
theorem exists_squareRoot? (y : Coordinate) :
    ∃ r, squareRoot? (y * y) = some r ∧ r * r = y * y := by
  have hpower : Fin.ofNat fieldPrime (Modular.power fieldPrime (y * y).val ((fieldPrime + 1) / 4)) =
      (y * y) ^ ((fieldPrime + 1) / 4) := by
    apply Fin.ext
    rw [Fin.val_ofNat, Modular.power_eq, Nat.mod_mod, val_pow]
  have hfermat : y ^ fieldPrime = y := by
    have hcard := FiniteField.pow_card y
    rwa [Fintype.card_fin] at hcard
  have hroot : (y * y) ^ ((fieldPrime + 1) / 4) * (y * y) ^ ((fieldPrime + 1) / 4) = y * y := by
    have hexp : 2 * ((fieldPrime + 1) / 4 + (fieldPrime + 1) / 4) = fieldPrime + 1 := by decide
    rw [← pow_add, ← pow_two, ← pow_mul, hexp, pow_succ, hfermat]
    ring
  refine ⟨_, ?_, hroot⟩
  rw [squareRoot?, hpower]
  exact if_pos hroot

namespace Point

theorem isOdd_neg (hy : y ≠ 0) : isOdd (-y) = !isOdd y := by
  have hpos : 0 < y.val := Nat.pos_of_ne_zero fun h ↦ hy (Fin.ext h)
  have hval : (-y).val = fieldPrime - y.val := by
    rw [Fin.val_neg', Nat.mod_eq_of_lt (by omega)]
  have hodd : fieldPrime % 2 = 1 := by decide
  have hlt := y.isLt
  rw [isOdd, isOdd, hval, Bool.eq_not, ne_eq, Bool.eq_iff_iff, beq_iff_eq, beq_iff_eq]
  omega

theorem lift?_isOdd (h : onCurve x y = true) : lift? x (isOdd y) = some (affine x y) := by
  obtain ⟨r, hr, hrr⟩ := exists_squareRoot? y
  rw [onCurve, decide_eq_true_iff] at h
  rw [lift?, ← h, hr]
  change some (affine x (if isOdd r = isOdd y then r else -r)) = _
  rcases mul_self_eq_mul_self_iff.mp hrr with rfl | rfl
  · rw [if_pos rfl]
  · by_cases hy : y = 0
    · simp [hy]
    · rw [isOdd_neg hy, if_neg (Bool.not_ne_self _), neg_neg]

theorem coordinate?_ofNatBE (x : Coordinate) : coordinate? (Bytes.ofNatBE 32 x.val) = some x := by
  have hle : fieldPrime ≤ 256 ^ 32 := by decide
  have hx : Bytes.toNatBE (Bytes.ofNatBE 32 x.val) = x.val :=
    Bytes.toNatBE_ofNatBE_of_lt (x.isLt.trans_le hle)
  simp only [coordinate?, hx, x.isLt, dite_true]

theorem length_encode (compressed : Bool) (x y : Coordinate) :
    ((affine x y).encode compressed).length = if compressed then 33 else 65 := by
  cases compressed <;> simp [encode]

theorem decode?_short (h : onCurve x y = true) :
    decode? ((if isOdd y then 3 else 2) :: Bytes.ofNatBE 32 x.val) = some (affine x y) := by
  have hlift := lift?_isOdd h
  have hb : (Bytes.ofNatBE 32 x.val).take 32 = Bytes.ofNatBE 32 x.val :=
    List.take_of_length_le (Bytes.length_ofNatBE 32 x.val).le
  cases ho : isOdd y <;>
  · rw [ho] at hlift
    rw [decode?, if_neg (by rw [Bytes.length_ofNatBE]; decide), hb, coordinate?_ofNatBE]
    exact hlift

theorem decode?_long (h : onCurve x y = true) :
    decode? (4 :: (Bytes.ofNatBE 32 x.val ++ Bytes.ofNatBE 32 y.val)) = some (affine x y) := by
  have hl : encodedLength 4 = (Bytes.ofNatBE 32 x.val ++ Bytes.ofNatBE 32 y.val).length + 1 := by
    rw [List.length_append, Bytes.length_ofNatBE, Bytes.length_ofNatBE]
    rfl
  rw [decode?, if_neg (not_not_intro hl), List.take_left' (Bytes.length_ofNatBE 32 x.val),
    coordinate?_ofNatBE]
  dsimp only
  rw [if_neg (by decide), List.drop_left' (Bytes.length_ofNatBE 32 x.val), coordinate?_ofNatBE]
  dsimp only
  rw [ofCoordinates?, if_neg (by simp), if_pos h]

theorem decode?_encode (compressed : Bool) {p : Point} (hp : p.IsOnCurve) (hne : p ≠ infinity) :
    decode? (p.encode compressed) = some p := by
  cases p with
  | infinity => exact absurd rfl hne
  | affine x y =>
    cases compressed with
    | false => exact decode?_long hp
    | true => exact decode?_short hp

end Point

end ChainAnchor.Curve
