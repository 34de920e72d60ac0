import ChainAnchor.Number.Modular
import Mathlib.Data.Int.ModEq
import Mathlib.Tactic.Ring

namespace ChainAnchor.Modular

theorem bezout_fst (r s : Nat) (x y : Int) : (bezout r s x y).1 = r.gcd s := by
  fun_induction bezout r s x y with
  | case1 r x y => simp
  | case2 r s x y hs ih => rw [ih, Nat.gcd_comm s, ← Nat.gcd_rec, Nat.gcd_comm]

theorem bezout_snd {m a : Int} (r s : Nat) (x y : Int) (hr : x * a ≡ r [ZMOD m])
    (hs : y * a ≡ s [ZMOD m]) : (bezout r s x y).2 * a ≡ r.gcd s [ZMOD m] := by
  fun_induction bezout r s x y with
  | case1 r x y => simpa using hr
  | case2 r s x y h ih =>
    have he : ((r % s : Nat) : Int) = r - (r / s : Nat) * s := by
      push_cast
      rw [Int.emod_def]
      ring
    have hrem : (x - (r / s : Nat) * y) * a ≡ (r % s : Nat) [ZMOD m] := by
      rw [he, sub_mul, mul_assoc]
      exact hr.sub (hs.mul_left _)
    rw [Nat.gcd_comm, Nat.gcd_rec, Nat.gcd_comm]
    exact ih hs hrem

theorem bezout_residue_fst (m a : Nat) : (bezout m (a % m) 0 1).1 = m.gcd a := by
  rw [bezout_fst, Nat.gcd_comm, ← Nat.gcd_rec]

theorem bezout_residue_snd (m a : Nat) :
    (bezout m (a % m) 0 1).2 * (a : Int) ≡ m.gcd a [ZMOD m] := by
  have hx := bezout_snd (m := m) (a := a) m (a % m) 0 1
    (by simpa using (Int.modEq_zero_iff_dvd.mpr dvd_rfl).symm)
    (by rw [one_mul, Int.natCast_mod]; exact (Int.mod_modEq _ _).symm)
  rwa [Nat.gcd_comm, ← Nat.gcd_rec] at hx

theorem invert?_of_coprime {m a : Nat} (hm : 0 < m) (ha : m.Coprime a) :
    ∃ x, invert? m a = some x ∧ x < m ∧ a * x ≡ 1 [MOD m] := by
  have hg := bezout_residue_fst m a
  have hx := bezout_residue_snd m a
  rw [ha.gcd_eq_one] at hg hx
  have hm' : (m : Int) ≠ 0 := Int.natCast_ne_zero.mpr hm.ne'
  have hcast := Int.toNat_of_nonneg (Int.emod_nonneg (bezout m (a % m) 0 1).2 hm')
  refine ⟨((bezout m (a % m) 0 1).2 % m).toNat, ?_, ?_, ?_⟩
  · rw [invert?]
    simp only [hg, if_true]
  · have hlt := Int.emod_lt_of_pos (bezout m (a % m) 0 1).2 (Int.natCast_pos.mpr hm)
    omega
  · rw [← Int.natCast_modEq_iff, Nat.cast_mul, hcast, mul_comm]
    exact ((Int.mod_modEq _ _).mul_right _).trans hx

theorem invert?_of_not_coprime {m a : Nat} (ha : ¬m.Coprime a) : invert? m a = none := by
  have hg := bezout_residue_fst m a
  rw [invert?]
  simp only [hg, if_neg ha]

theorem invert?_eq {m a b : Nat} (hb : b < m) (hab : a * b ≡ 1 [MOD m]) :
    invert? m a = some b := by
  have ha : m.Coprime a := (Nat.coprime_of_mul_modEq_one b hab).symm
  obtain ⟨x, hx, hlt, hax⟩ := invert?_of_coprime (Nat.zero_lt_of_lt hb) ha
  have hxb : x ≡ b [MOD m] := Nat.ModEq.cancel_left_of_coprime ha (hax.trans hab.symm)
  rw [hx, Nat.ModEq.eq_of_lt_of_lt hxb hlt hb]

end ChainAnchor.Modular
