import ChainAnchor.Proofs.Curve.Jacobian
import ChainAnchor.Proofs.Number.Primality

namespace ChainAnchor.Curve

open ChainAnchor.Modular

def fieldCertificates : List Certificate :=
  [⟨fieldPrime, 3, [2, 3, 7, 13441,
      205115282021455665897114700593932402728804164701536103180137503955397371]⟩,
    ⟨205115282021455665897114700593932402728804164701536103180137503955397371, 10,
      [2, 3, 5, 29, 29, 31, 7723, 132896956044521568488119,
        255515944373312847190720520512484175977]⟩,
    ⟨132896956044521568488119, 6, [2, 3, 22149492674086928081353]⟩,
    ⟨22149492674086928081353, 5, [2, 2, 2, 3, 5323, 173378833005251801]⟩,
    ⟨173378833005251801, 6, [2, 2, 2, 5, 5, 2621, 24809, 13331831]⟩,
    ⟨13331831, 13, [2, 5, 971, 1373]⟩,
    ⟨255515944373312847190720520512484175977, 3,
      [2, 2, 2, 7, 7, 11, 1627, 2657, 4423, 41201, 96557, 7240687, 107590001]⟩,
    ⟨7240687, 3, [2, 3, 1206781]⟩,
    ⟨1206781, 10, [2, 2, 3, 5, 20113]⟩,
    ⟨107590001, 3, [2, 2, 2, 2, 5, 5, 5, 5, 7, 29, 53]⟩]

def orderCertificates : List Certificate :=
  [⟨order, 7, [2, 2, 2, 2, 2, 2, 3, 149, 631, 107361793816595537, 174723607534414371449,
      341948486974166000522343609283189]⟩,
    ⟨107361793816595537, 3, [2, 2, 2, 2, 16699, 85831, 4681609]⟩,
    ⟨4681609, 23, [2, 2, 2, 3, 97, 2011]⟩,
    ⟨174723607534414371449, 3, [2, 2, 2, 17, 59, 4051, 120233, 44706919]⟩,
    ⟨44706919, 6, [2, 3, 797, 9349]⟩,
    ⟨341948486974166000522343609283189, 2,
      [2, 2, 3, 3, 3, 109, 29047611873442575647497758179]⟩,
    ⟨29047611873442575647497758179, 2, [2, 293, 305873, 545358713, 297159362677]⟩,
    ⟨305873, 3, [2, 2, 2, 2, 7, 2731]⟩,
    ⟨545358713, 5, [2, 2, 2, 41, 59, 28181]⟩,
    ⟨297159362677, 2, [2, 2, 3, 3, 11, 461, 1627771]⟩,
    ⟨1627771, 3, [2, 3, 5, 29, 1871]⟩]

theorem fieldPrime_prime : fieldPrime.Prime := by
  have hl : certified fieldCertificates = true := by decide +kernel
  exact prime_of_certified hl _ List.mem_cons_self

theorem order_prime : order.Prime := by
  have hl : certified orderCertificates = true := by decide +kernel
  exact prime_of_certified hl _ List.mem_cons_self

open scoped Fin.CommRing

theorem mul_invert {n : Nat} [NeZero n] (hn : n.Prime) {x : Fin n} (hx : x ≠ 0) :
    x * invert x = 1 := by
  have hpos : 0 < x.val := Nat.pos_of_ne_zero fun h ↦ hx (Fin.ext h)
  have hcop : x.val.Coprime n := (Nat.coprime_of_lt_prime hpos.ne' x.isLt hn).symm
  obtain ⟨m, -, hm⟩ := Nat.exists_mul_mod_eq_one_of_coprime hcop hn.one_lt
  have hxy : x * Fin.ofNat n m = 1 := by
    apply Fin.ext
    rw [Fin.val_mul, Fin.val_ofNat, Nat.mul_mod_mod, hm, Fin.val_one', Nat.mod_eq_of_lt hn.one_lt]
  rw [invert_eq hxy, hxy]

scoped instance : Field Coordinate where
  inv := invert
  div x y := x * invert y
  exists_pair_ne := ⟨0, 1, by decide⟩
  mul_inv_cancel _ hx := mul_invert fieldPrime_prime hx
  inv_zero := by decide +kernel
  nnqsmul := _
  nnqsmul_def _ _ := rfl
  qsmul := _
  qsmul_def _ _ := rfl

end ChainAnchor.Curve
