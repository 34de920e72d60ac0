import ChainAnchor.Proofs.Number.Inverse
import ChainAnchor.Proofs.Number.Primality

namespace ChainAnchor.Modular

variable {a b e m x y : Int}

def IsInverse (a m x : Int) : Prop := 0 ≤ x ∧ x < |m| ∧ a * x ≡ 1 [ZMOD |m|]

theorem IsInverse.unique (hx : IsInverse a m x) (hy : IsInverse a m y) : x = y := by
  obtain ⟨hx0, hxm, hax⟩ := hx
  obtain ⟨hy0, hym, hay⟩ := hy
  have hxy : x ≡ y [ZMOD |m|] := by
    calc x = x * 1 := (mul_one x).symm
      _ ≡ x * (a * y) [ZMOD |m|] := (hay.mul_left x).symm
      _ = a * x * y := by ring
      _ ≡ 1 * y [ZMOD |m|] := hax.mul_right y
      _ = y := one_mul y
  rwa [Int.ModEq, Int.emod_eq_of_lt hx0 hxm, Int.emod_eq_of_lt hy0 hym] at hxy

theorem emod_modEq_abs (a m : Int) : a % m ≡ a [ZMOD |m|] := by
  rw [Int.ModEq, Int.emod_abs, Int.emod_abs, Int.emod_emod]

theorem natCast_residue (a : Int) (hm : m ≠ 0) : (residue a m : Int) = a % m :=
  Int.toNat_of_nonneg (Int.emod_nonneg a hm)

theorem natCast_emod_natAbs (n : Nat) (m : Int) : ((n % m.natAbs : Nat) : Int) = n % m := by
  rw [Int.natCast_mod, Int.natCast_natAbs, Int.emod_abs]

theorem power_residue (a : Int) (n : Nat) (hm : m ≠ 0) :
    (power m.natAbs (residue a m) n : Int) = a ^ n % m := by
  rw [power_eq, natCast_emod_natAbs, Nat.cast_pow, natCast_residue a hm]
  exact ((Int.mod_modEq a m).pow n).eq

theorem coprime_residue_iff (hm : m ≠ 0) :
    m.natAbs.Coprime (residue a m) ↔ Number.gcd a m = 1 := by
  have hgcd : Int.gcd (residue a m : Int) m = Int.gcd a m := by
    rw [natCast_residue a hm, Int.gcd_emod]
  rw [Number.gcd, Nat.cast_eq_one, Nat.coprime_comm]
  exact Eq.congr_left hgcd

theorem multiply_eq_remainder (a b : Int) (hm : m ≠ 0) :
    multiply a b m = Number.remainder (a * b) m := by
  rw [multiply, if_neg hm, Number.remainder, if_neg hm, natCast_emod_natAbs, Nat.cast_mul,
    natCast_residue a hm, natCast_residue b hm, ← Int.mul_emod]

theorem pow_eq_remainder (a : Int) (hm : m ≠ 0) (he : 0 ≤ e) :
    pow a e m = Number.remainder (a ^ e.toNat) m := by
  rw [pow, if_neg hm, if_pos he, power_residue a _ hm, Number.remainder, if_neg hm]

theorem exists_inverse (hm : m ≠ 0) (ha : Number.gcd a m = 1) :
    ∃ x, inverse a m = .ok x ∧ IsInverse a m x := by
  obtain ⟨x, hx, hlt, hax⟩ :=
    invert?_of_coprime (Int.natAbs_pos.mpr hm) ((coprime_residue_iff hm).mpr ha)
  refine ⟨x, ?_, Int.natCast_nonneg x, ?_, ?_⟩
  · rw [inverse, if_neg hm, hx]
  · rw [← Int.natCast_natAbs]
    exact Int.ofNat_lt.mpr hlt
  · have hax := Int.natCast_modEq_iff.mpr hax
    rw [Nat.cast_mul, natCast_residue a hm, Int.natCast_natAbs, Nat.cast_one] at hax
    exact ((emod_modEq_abs a m).mul_right _).symm.trans hax

theorem inverse_eq_error (hm : m ≠ 0) (ha : Number.gcd a m ≠ 1) :
    inverse a m = .error .notInvertible := by
  rw [inverse, if_neg hm, invert?_of_not_coprime (mt (coprime_residue_iff hm).mp ha)]

theorem exists_pow (hm : m ≠ 0) (he : e < 0) (ha : Number.gcd a m = 1) :
    ∃ r, pow a e m = .ok r ∧ IsInverse (a ^ e.natAbs) m r := by
  obtain ⟨x, hx, -, -, hax⟩ := exists_inverse hm ha
  refine ⟨x ^ e.natAbs % m, ?_, Int.emod_nonneg _ hm, Int.emod_lt_abs _ hm, ?_⟩
  · rw [pow, if_neg hm, if_neg (Int.not_le.mpr he), hx]
    exact congrArg Except.ok (power_residue x _ hm)
  · calc a ^ e.natAbs * (x ^ e.natAbs % m)
        ≡ a ^ e.natAbs * x ^ e.natAbs [ZMOD |m|] := (emod_modEq_abs _ m).mul_left _
      _ = (a * x) ^ e.natAbs := (mul_pow a x _).symm
      _ ≡ 1 ^ e.natAbs [ZMOD |m|] := hax.pow _
      _ = 1 := one_pow _

theorem pow_eq_error (hm : m ≠ 0) (he : e < 0) (ha : Number.gcd a m ≠ 1) :
    pow a e m = .error .notInvertible := by
  rw [pow, if_neg hm, if_neg (Int.not_le.mpr he), inverse_eq_error hm ha]

theorem remainder_of_abs_eq_one (a : Int) (hm : |m| = 1) : Number.remainder a m = .ok 0 := by
  have hm0 : m ≠ 0 := abs_pos.mp (by rw [hm]; exact Int.one_pos)
  rw [Number.remainder, if_neg hm0, ← Int.emod_abs, hm, Int.emod_one]

theorem IsInverse.eq_zero (hx : IsInverse a m x) (hm : |m| = 1) : x = 0 := by
  obtain ⟨h0, hlt, -⟩ := hx
  rw [hm] at hlt
  omega

theorem gcd_of_abs_eq_one (a : Int) (hm : |m| = 1) : Number.gcd a m = 1 := by
  have hm1 : m.natAbs = 1 := by rwa [← Int.natCast_natAbs, Nat.cast_eq_one] at hm
  rw [Number.gcd, hm1, Nat.gcd_one_right, Nat.cast_one]

/-- Modulo one, zero is the inverse of every number, and the only residue there is. -/
theorem operations_of_abs_eq_one (a b e : Int) (hm : |m| = 1) :
    multiply a b m = .ok 0 ∧ inverse a m = .ok 0 ∧ pow a e m = .ok 0 := by
  have hm0 : m ≠ 0 := abs_pos.mp (by rw [hm]; exact Int.one_pos)
  have ha := gcd_of_abs_eq_one a hm
  refine ⟨?_, ?_, ?_⟩
  · rw [multiply_eq_remainder a b hm0, remainder_of_abs_eq_one _ hm]
  · obtain ⟨x, hx, hinv⟩ := exists_inverse hm0 ha
    rw [hx, hinv.eq_zero hm]
  · rcases lt_or_ge e 0 with he | he
    · obtain ⟨r, hr, hinv⟩ := exists_pow hm0 he ha
      rw [hr, hinv.eq_zero hm]
    · rw [pow_eq_remainder a hm0 he, remainder_of_abs_eq_one _ hm]

/-- Modulo zero there is no arithmetic.  Modulo any other integer the operations agree with those on
the integers, and a negative exponent takes the inverse where there is one. -/
theorem operations_exact (a b e m : Int) :
    (m = 0 → multiply a b m = .error .invalidModulus ∧ inverse a m = .error .invalidModulus ∧
      pow a e m = .error .invalidModulus) ∧
    (m ≠ 0 →
      multiply a b m = Number.remainder (a * b) m ∧
      (0 ≤ e → pow a e m = Number.remainder (a ^ e.toNat) m) ∧
      (Number.gcd a m = 1 →
        (∃ x, inverse a m = .ok x ∧ IsInverse a m x ∧ ∀ y, IsInverse a m y → y = x) ∧
        (e < 0 → ∃ r, pow a e m = .ok r ∧ IsInverse (a ^ e.natAbs) m r)) ∧
      (Number.gcd a m ≠ 1 → inverse a m = .error .notInvertible ∧
        (e < 0 → pow a e m = .error .notInvertible))) ∧
    (|m| = 1 → multiply a b m = .ok 0 ∧ inverse a m = .ok 0 ∧ pow a e m = .ok 0) := by
  refine ⟨?_, fun hm ↦ ⟨multiply_eq_remainder a b hm, pow_eq_remainder a hm, fun ha ↦ ⟨?_, ?_⟩,
    fun ha ↦ ⟨inverse_eq_error hm ha, fun he ↦ pow_eq_error hm he ha⟩⟩,
    operations_of_abs_eq_one a b e⟩
  · rintro rfl
    exact ⟨if_pos rfl, if_pos rfl, if_pos rfl⟩
  · obtain ⟨x, hx, hax⟩ := exists_inverse hm ha
    exact ⟨x, hx, hax, fun y hy ↦ hy.unique hax⟩
  · intro he
    exact exists_pow hm he ha

/-- All signs are negative; seven is the inverse of minus five modulo twelve, and one is that of its
square, while eight has no inverse. -/
theorem operations_exact_negative :
    multiply (-5) 7 (-12) = Number.remainder (-35) (-12) ∧ inverse (-5) (-12) = .ok 7 ∧
      pow (-5) (-2) (-12) = .ok 1 ∧ inverse 8 (-12) = .error .notInvertible ∧
      pow 8 (-2) (-12) = .error .notInvertible ∧ inverse 8 0 = .error .invalidModulus ∧
      pow 8 (-2) (-1) = .ok 0 := by
  obtain ⟨-, hplain, -⟩ := operations_exact (-5) 7 (-2) (-12)
  obtain ⟨hmul, -, hunit, -⟩ := hplain (by decide)
  obtain ⟨⟨x, hx, -, hunique⟩, hpow⟩ := hunit (by decide)
  obtain ⟨r, hr, hinv⟩ := hpow (by decide)
  have h7 : IsInverse (-5) (-12) 7 := ⟨by decide, by decide, by decide⟩
  have h1 : IsInverse ((-5) ^ (-2 : Int).natAbs) (-12) 1 := ⟨by decide, by decide, by decide⟩
  obtain ⟨-, hplain, -⟩ := operations_exact 8 7 (-2) (-12)
  obtain ⟨-, -, -, hnone⟩ := hplain (by decide)
  obtain ⟨hinverse, hpow⟩ := hnone (by decide)
  obtain ⟨hzero, -, -⟩ := operations_exact 8 7 (-2) 0
  obtain ⟨-, -, hone⟩ := operations_exact 8 7 (-2) (-1)
  exact ⟨hmul, hunique 7 h7 ▸ hx, hinv.unique h1 ▸ hr, hinverse, hpow (by decide),
    (hzero rfl).2.1, (hone (by decide)).2.2⟩

end ChainAnchor.Modular
