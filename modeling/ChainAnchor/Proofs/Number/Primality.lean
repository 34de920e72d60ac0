import ChainAnchor.Number.Modular
import Mathlib.NumberTheory.LucasPrimality

namespace ChainAnchor.Modular

theorem power_eq (m b e : Nat) : power m b e = b ^ e % m := by
  fun_induction power m b e with
  | case1 b => rw [Nat.pow_zero]
  | case2 b e he r hodd ih =>
    have hodd : e = 2 * (e / 2) + 1 := by omega
    change b * power m (b * b % m) (e / 2) % m = b ^ e % m
    conv_rhs => rw [hodd, Nat.pow_succ', Nat.pow_mul, Nat.pow_two]
    rw [ih, ← Nat.pow_mod, Nat.mul_mod_mod]
  | case3 b e he r heven ih =>
    have heven : e = 2 * (e / 2) := by omega
    change power m (b * b % m) (e / 2) = b ^ e % m
    conv_rhs => rw [heven, Nat.pow_mul, Nat.pow_two]
    rw [ih, ← Nat.pow_mod]

structure Certificate where
  prime : Nat
  witness : Nat
  factors : List Nat

/-- Whether the factors are those of the predecessor, each known or seen to be prime, and show that
the witness has it as order. -/
def Certificate.holds (known : List Nat) (c : Certificate) : Bool :=
  c.factors.prod + 1 == c.prime && power c.prime c.witness (c.prime - 1) == 1 &&
    c.factors.all fun q ↦
      (known.contains q || decide (2 ≤ q ∧ q.minFac = q)) &&
        power c.prime c.witness ((c.prime - 1) / q) != 1

def certified : List Certificate → Bool
  | [] => true
  | c :: l => c.holds (l.map (·.prime)) && certified l

theorem Certificate.prime_of_holds {known : List Nat} {c : Certificate}
    (hk : ∀ q ∈ known, q.Prime) (hc : c.holds known = true) : c.prime.Prime := by
  obtain ⟨p, a, l⟩ := c
  simp only [holds, Bool.and_eq_true, beq_iff_eq, List.all_eq_true, Bool.or_eq_true,
    List.contains_iff_mem, decide_eq_true_eq, bne_iff_ne, power_eq] at hc ⊢
  obtain ⟨⟨hp, ha⟩, hl⟩ := hc
  have hprime (q : Nat) (hq : q ∈ l) : q.Prime :=
    (hl q hq).1.elim (hk q) Nat.prime_def_minFac.mpr
  have hp₁ : 1 < p := by
    have hpos : 0 < l.prod := List.prod_pos fun q hq ↦ (hprime q hq).pos
    omega
  have hone (e : Nat) : (a : ZMod p) ^ e = 1 ↔ a ^ e % p = 1 := by
    rw [← Nat.cast_pow, ← Nat.cast_one, ZMod.natCast_eq_natCast_iff', Nat.mod_eq_of_lt hp₁]
  refine lucas_primality p a ((hone _).mpr ha) fun q hq hdvd ↦ ?_
  have hmem : q ∈ l := by
    rw [← hp, Nat.add_sub_cancel] at hdvd
    obtain ⟨r, hr, hqr⟩ := (Nat.Prime.prime hq).dvd_prod_iff.mp hdvd
    rwa [(Nat.prime_dvd_prime_iff_eq hq (hprime r hr)).mp hqr]
  exact (hone _).not.mpr (hl q hmem).2

theorem prime_of_certified {l : List Certificate} (hl : certified l = true) :
    ∀ c ∈ l, c.prime.Prime := by
  induction l with
  | nil => exact fun c hc ↦ absurd hc List.not_mem_nil
  | cons c l ih =>
    rw [certified, Bool.and_eq_true] at hl
    have hknown : ∀ q ∈ l.map (·.prime), q.Prime := by
      intro q hq
      obtain ⟨d, hd, rfl⟩ := List.mem_map.mp hq
      exact ih hl.2 d hd
    intro d hd
    rcases List.mem_cons.mp hd with rfl | hd
    · exact Certificate.prime_of_holds hknown hl.1
    · exact ih hl.2 d hd

end ChainAnchor.Modular
