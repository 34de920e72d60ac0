import ChainAnchor.Proofs.Curve.Field
import Mathlib.AlgebraicGeometry.EllipticCurve.Affine.Point
import Mathlib.GroupTheory.OrderOfElement

namespace ChainAnchor.Curve

open scoped Fin.CommRing

def weierstrass : WeierstrassCurve.Affine Coordinate := ⟨0, 0, 0, 0, 7⟩

theorem discriminant_ne_zero : weierstrass.Δ ≠ 0 := by
  simp only [WeierstrassCurve.Δ, WeierstrassCurve.b₂, WeierstrassCurve.b₄, WeierstrassCurve.b₆,
    WeierstrassCurve.b₈, weierstrass]
  decide +kernel

variable {x y x₁ y₁ x₂ y₂ : Coordinate}

theorem nonsingular_iff : weierstrass.Nonsingular x y ↔ Point.onCurve x y = true := by
  rw [← weierstrass.equation_iff_nonsingular_of_Δ_ne_zero discriminant_ne_zero,
    WeierstrassCurve.Affine.equation_iff, Point.onCurve, decide_eq_true_iff]
  simp only [weierstrass]
  ring_nf

namespace Point

open WeierstrassCurve.Affine

def place : weierstrass.Point → Point
  | .zero => infinity
  | .some x y _ => affine x y

theorem place_injective : Function.Injective place := by
  rintro (_ | ⟨x, y, h⟩) (_ | ⟨x', y', h'⟩) he
  · rfl
  · cases he
  · cases he
  · cases he
    rfl

theorem exists_place {p : Point} (hp : p.IsOnCurve) : ∃ P, place P = p := by
  cases p with
  | infinity => exact ⟨0, rfl⟩
  | affine x y => exact ⟨.some x y (nonsingular_iff.mpr hp), rfl⟩

theorem isOnCurve_place (P : weierstrass.Point) : (place P).IsOnCurve := by
  cases P with
  | zero => trivial
  | some x y h => exact nonsingular_iff.mp h

theorem negY_weierstrass (x y : Coordinate) : weierstrass.negY x y = -y := by
  simp [negY, weierstrass]

theorem along_eq (s x₁ y₁ x₂ : Coordinate) :
    along s x₁ y₁ x₂ =
      affine (weierstrass.addX x₁ x₂ s) (weierstrass.addY x₁ x₂ y₁ s) := by
  simp only [along, addX, addY, negAddY, negY, weierstrass, affine.injEq]
  constructor <;> ring

theorem eq_neg_iff : y = -y ↔ y = 0 := by
  have htwo : (2 : Coordinate) ≠ 0 := by decide +kernel
  have hsum : y - -y = 2 * y := by ring
  rw [← sub_eq_zero, hsum, mul_eq_zero, or_iff_right htwo]

theorem slope_of_ne (hx : x₁ ≠ x₂) :
    weierstrass.slope x₁ x₂ y₁ y₂ = (y₂ - y₁) * invert (x₂ - x₁) := by
  rw [slope_of_X_ne hx, ← neg_sub y₂, ← neg_sub x₂, neg_div_neg_eq]
  rfl

theorem slope_self (hy : y ≠ -y) :
    weierstrass.slope x x y y = 3 * x * x * invert (2 * y) := by
  rw [slope_of_Y_ne rfl (by rwa [negY_weierstrass]), negY_weierstrass]
  have hn : 3 * x ^ 2 + 2 * weierstrass.a₂ * x + weierstrass.a₄ - weierstrass.a₁ * y =
      3 * x * x := by
    simp only [weierstrass]
    ring
  have hd : y - -y = 2 * y := by ring
  rw [hn, hd]
  rfl

theorem place_add (P Q : weierstrass.Point) : place (P + Q) = (place P).add (place Q) := by
  rcases P with _ | ⟨x₁, y₁, h₁⟩
  · exact congrArg place (zero_add Q)
  rcases Q with _ | ⟨x₂, y₂, h₂⟩
  · exact congrArg place (add_zero _)
  change _ = add (affine x₁ y₁) (affine x₂ y₂)
  rw [add]
  by_cases hx : x₁ = x₂
  · subst hx
    rw [if_pos rfl]
    by_cases hy : y₁ = -y₂
    · rw [Point.add_of_Y_eq rfl (by rwa [negY_weierstrass])]
      change infinity = _
      split
      next he =>
        have hzero : y₁ = 0 := eq_neg_iff.mp (by rwa [← he] at hy)
        rw [double, if_pos hzero]
      next => rfl
    · have he : y₁ = y₂ := Y_eq_of_Y_ne h₁.1 h₂.1 rfl (by rwa [negY_weierstrass])
      subst he
      rw [if_pos rfl, double, if_neg (eq_neg_iff.not.mp hy), ← slope_self hy, along_eq,
        Point.add_of_Y_ne (by rwa [negY_weierstrass])]
      rfl
  · rw [if_neg hx, ← slope_of_ne hx, Point.add_of_X_ne hx, along_eq]
    rfl

theorem place_double (P : weierstrass.Point) : place (P + P) = (place P).double := by
  rw [place_add]
  cases P with
  | zero => rfl
  | some x y h =>
    change add (affine x y) (affine x y) = double (affine x y)
    rw [add, if_pos rfl, if_pos rfl]

theorem place_multiply (k : Nat) (P : weierstrass.Point) :
    place (k • P) = multiply k (place P) := by
  induction k using Nat.strongRecOn with
  | ind k ih =>
    rw [multiply]
    split
    next hk =>
      rw [hk, zero_nsmul]
      rfl
    next hk =>
      have hhalf : double (multiply (k / 2) (place P)) = place ((2 * (k / 2)) • P) := by
        rw [← ih (k / 2) (by omega), ← place_double, ← two_nsmul, ← mul_nsmul']
      dsimp only
      rw [hhalf]
      split
      next hodd =>
        rw [← place_add, ← succ_nsmul]
        congr 2
        omega
      next heven =>
        congr 2
        omega

theorem place_neg (P : weierstrass.Point) : place (-P) = negate (place P) := by
  cases P with
  | zero => rfl
  | some x y h =>
    change affine x (weierstrass.negY x y) = affine x (-y)
    rw [negY_weierstrass]

theorem multiply_of_order_pred : multiply (order - 1) generator = negate generator := by
  have hm : Jacobian.multiple? (order - 1) generator = some (negate generator) := by
    decide +kernel
  exact Jacobian.multiply_of_multiple? hm

theorem exists_generator :
    ∃ G : weierstrass.Point, place G = generator ∧ addOrderOf G = order := by
  have hcurve : generator.IsOnCurve := by
    change onCurve _ _ = true
    decide +kernel
  obtain ⟨G, hG⟩ := exists_place hcurve
  have hpred : (order - 1) • G = -G := by
    apply place_injective
    rw [place_multiply, place_neg, hG, multiply_of_order_pred]
  have hzero : order • G = 0 := by
    rw [← Nat.sub_add_cancel order_prime.pos, succ_nsmul, hpred, neg_add_cancel]
  have hne : G ≠ 0 := by
    rintro rfl
    cases hG
  have hprime : Fact order.Prime := ⟨order_prime⟩
  exact ⟨G, hG, addOrderOf_eq_prime hzero hne⟩

theorem multiply_generator_eq_infinity_iff (k : Nat) :
    multiply k generator = infinity ↔ order ∣ k := by
  obtain ⟨G, hG, ho⟩ := exists_generator
  rw [← ho, addOrderOf_dvd_iff_nsmul_eq_zero, ← hG, ← place_multiply]
  exact place_injective.eq_iff (a := k • G) (b := 0)

theorem multiply_generator_mod (k : Nat) :
    multiply (k % order) generator = multiply k generator := by
  obtain ⟨G, hG, ho⟩ := exists_generator
  rw [← hG, ← place_multiply, ← place_multiply, ← ho, mod_addOrderOf_nsmul]

theorem add_multiply_generator (j k : Nat) :
    (multiply j generator).add (multiply k generator) = multiply (j + k) generator := by
  obtain ⟨G, hG, -⟩ := exists_generator
  rw [← hG, ← place_multiply, ← place_multiply, ← place_multiply, ← place_add, add_nsmul]

theorem isOnCurve_multiply_generator (k : Nat) : (multiply k generator).IsOnCurve := by
  obtain ⟨G, hG, -⟩ := exists_generator
  rw [← hG, ← place_multiply]
  exact isOnCurve_place (k • G)

theorem multiply_multiply_generator (j k : Nat) :
    multiply j (multiply k generator) = multiply (k * j) generator := by
  obtain ⟨G, hG, -⟩ := exists_generator
  rw [← hG, ← place_multiply, ← place_multiply, ← place_multiply, mul_nsmul]

theorem multiply_neg_generator (k : Scalar) :
    multiply (-k).val generator = negate (multiply k.val generator) := by
  obtain ⟨G, hG, ho⟩ := exists_generator
  have hsum : ((-k).val + k.val) % order = 0 := by
    rw [← Fin.val_add, neg_add_cancel]
    rfl
  have hzero : (-k).val • G + k.val • G = 0 := by
    rw [← add_nsmul, ← addOrderOf_dvd_iff_nsmul_eq_zero, ho]
    exact Nat.dvd_of_mod_eq_zero hsum
  rw [← hG, ← place_multiply, ← place_multiply, ← place_neg, eq_neg_of_add_eq_zero_left hzero]

/-- Scalars that multiply the generator and one of its multiples are reckoned with as scalars. -/
theorem add_multiply_scalar (a b k : Scalar) :
    (multiply a.val generator).add (multiply b.val (multiply k.val generator)) =
      multiply (a + b * k).val generator := by
  have hval : (a + b * k).val = (a.val + k.val * b.val) % order := by
    rw [Fin.val_add, Fin.val_mul, Nat.add_mod_mod, Nat.mul_comm]
  rw [multiply_multiply_generator, add_multiply_generator, hval, multiply_generator_mod]

theorem multiply_scalar_eq_infinity_iff (k : Scalar) :
    multiply k.val generator = infinity ↔ k = 0 := by
  rw [multiply_generator_eq_infinity_iff]
  exact ⟨fun h ↦ Fin.ext (Nat.eq_zero_of_dvd_of_lt h k.isLt), fun h ↦ h ▸ dvd_zero order⟩

end Point

end ChainAnchor.Curve
