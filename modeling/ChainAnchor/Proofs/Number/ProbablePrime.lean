import ChainAnchor.Number.Prime
import ChainAnchor.Proofs.Number.Primality
import ChainAnchor.Proofs.Number.Random
import Mathlib.FieldTheory.Finite.Basic

namespace ChainAnchor.Prime

variable {n p a s d k rounds : Nat} {b : Bool} {l : List Nat} {supply rest : Bytes}

/-- Modulo `n`, which is one more than `d * 2 ^ s`, the powers of `a` reach one as they do modulo a
prime: from the start, or from minus one. -/
def Vouches (n s d a : Nat) : Prop :=
  a ^ d ≡ 1 [MOD n] ∨ ∃ i < s, (a : Int) ^ (d * 2 ^ i) ≡ -1 [ZMOD n]

theorem mem_smallPrimes_iff : p ∈ smallPrimes ↔ p.Prime ∧ p ≤ 97 := by
  have hall : ∀ q < 98, q ∈ smallPrimes ↔ q.Prime := by decide +kernel
  have hle : ∀ q ∈ smallPrimes, q ≤ 97 := by decide
  refine ⟨fun h ↦ ?_, fun h ↦ ?_⟩
  · have hp := hle p h
    exact ⟨(hall p (by omega)).mp h, hp⟩
  · exact (hall p (by omega)).mpr h.1

theorem smallVerdict_eq_none_iff :
    smallVerdict n = none ↔ ∀ p, p.Prime → p ∣ n → 97 < p := by
  rw [smallVerdict, List.findSome?_eq_none_iff]
  refine ⟨fun h p hp hdvd ↦ ?_, fun h p hp ↦ ?_⟩
  · by_contra hle
    have hnone := h p (mem_smallPrimes_iff.mpr ⟨hp, by omega⟩)
    rw [if_pos (Nat.mod_eq_zero_of_dvd hdvd)] at hnone
    split at hnone <;> cases hnone
  · obtain ⟨hp, hle⟩ := mem_smallPrimes_iff.mp hp
    have hdvd : ¬p ∣ n := fun hdvd ↦ by
      have hlt := h p hp hdvd
      omega
    have hne : n ≠ p := fun heq ↦ hdvd (dvd_of_eq heq.symm)
    rw [if_neg hne, if_neg fun hmod ↦ hdvd (Nat.dvd_of_mod_eq_zero hmod)]

theorem prime_iff_of_smallVerdict (h : smallVerdict n = some b) : b = true ↔ n.Prime := by
  obtain ⟨p, hmem, hp⟩ := List.exists_of_findSome?_eq_some h
  have hprime := (mem_smallPrimes_iff.mp hmem).1
  split at hp
  next heq =>
    cases hp
    exact iff_of_true rfl (heq ▸ hprime)
  next hne =>
    split at hp
    next hmod =>
      cases hp
      refine iff_of_false Bool.false_ne_true fun hn ↦ hne ?_
      exact ((Nat.prime_dvd_prime_iff_eq hprime hn).mp (Nat.dvd_of_mod_eq_zero hmod)).symm
    next => cases hp

theorem smallVerdict_of_dvd (hp : p.Prime) (hle : p ≤ 97) (hdvd : p ∣ n) :
    smallVerdict n = some (decide n.Prime) := by
  cases h : smallVerdict n with
  | none =>
    have hlt := smallVerdict_eq_none_iff.mp h p hp hdvd
    omega
  | some b => rw [← Bool.decide_congr (prime_iff_of_smallVerdict h), Bool.decide_eq_true]

theorem splitPowerOfTwo_eq (hd : d % 2 = 1) (s : Nat) : splitPowerOfTwo (d * 2 ^ s) = (s, d) := by
  induction s with
  | zero =>
    rw [splitPowerOfTwo, Nat.pow_zero, Nat.mul_one]
    exact if_pos (.inr hd)
  | succ s ih =>
    have hne : d * 2 ^ s ≠ 0 := Nat.mul_ne_zero (by omega) (Nat.two_pow_pos s).ne'
    have hdouble : d * 2 ^ (s + 1) = 2 * (d * 2 ^ s) := by ring
    rw [splitPowerOfTwo, if_neg (by omega), hdouble, Nat.mul_div_cancel_left _ (by decide), ih]

theorem square_pow_mod (n x i : Nat) : (x * x % n) ^ 2 ^ i % n = x ^ 2 ^ (i + 1) % n := by
  rw [← Nat.pow_mod, ← Nat.pow_two, ← Nat.pow_mul, Nat.pow_succ']

theorem reachesMinusOne_iff (n k x : Nat) :
    reachesMinusOne n k x = true ↔ ∃ i < k, x ^ 2 ^ (i + 1) % n = n - 1 := by
  induction k generalizing x with
  | zero => exact iff_of_false Bool.false_ne_true fun ⟨i, hi, _⟩ ↦ Nat.not_lt_zero i hi
  | succ k ih =>
    have hfirst : x * x % n = x ^ 2 ^ (0 + 1) % n := by rw [Nat.zero_add, Nat.pow_one, Nat.pow_two]
    simp only [reachesMinusOne, Bool.or_eq_true, beq_iff_eq, ih, square_pow_mod]
    rw [Nat.exists_lt_succ_left, hfirst]

theorem mod_eq_pred_iff (hn : 0 < n) (x : Nat) : x % n = n - 1 ↔ (x : Int) ≡ -1 [ZMOD n] := by
  have hpred : ((n - 1 : Nat) : Int) ≡ -1 [ZMOD n] := by
    rw [Nat.cast_sub hn, Int.modEq_comm, Int.modEq_iff_dvd]
    simp
  have hmod : x % n = n - 1 ↔ x ≡ n - 1 [MOD n] := by
    rw [Nat.ModEq, Nat.mod_eq_of_lt (by omega : n - 1 < n)]
  rw [hmod, ← Int.natCast_modEq_iff]
  exact ⟨fun h ↦ h.trans hpred, fun h ↦ h.trans hpred.symm⟩

theorem passes_iff (hn : 1 < n) (hsplit : n - 1 = d * 2 ^ (s + 1)) (hd : d % 2 = 1) (a : Nat) :
    passes n a = true ↔ Vouches n (s + 1) d a := by
  have hone : a ^ d % n = 1 ↔ a ^ d ≡ 1 [MOD n] := by rw [Nat.ModEq, Nat.mod_eq_of_lt hn]
  have hminus (i : Nat) :
      (a ^ d % n) ^ 2 ^ i % n = n - 1 ↔ (a : Int) ^ (d * 2 ^ i) ≡ -1 [ZMOD n] := by
    rw [← Nat.pow_mod, ← Nat.pow_mul, mod_eq_pred_iff (by omega), Nat.cast_pow]
  have hfirst : a ^ d % n = n - 1 ↔ (a : Int) ^ (d * 2 ^ 0) ≡ -1 [ZMOD n] := by
    rw [← hminus, Nat.pow_zero, Nat.pow_one, Nat.mod_mod]
  have hpair : splitPowerOfTwo (n - 1) = (s + 1, d) := by rw [hsplit, splitPowerOfTwo_eq hd]
  simp only [passes, hpair, Modular.power_eq, Bool.or_eq_true, beq_iff_eq, reachesMinusOne_iff,
    Nat.add_sub_cancel, hminus, hone, hfirst]
  rw [Vouches, Nat.exists_lt_succ_left, or_assoc]

/-- Square roots of one are one and minus one, so going back from one minus one comes up first. -/
theorem eq_one_or_exists_eq_neg_one {R : Type} [CommRing R] [NoZeroDivisors R] {x : R}
    (h : x ^ 2 ^ s = 1) : x = 1 ∨ ∃ i < s, x ^ 2 ^ i = -1 := by
  induction s with
  | zero => exact .inl (by rwa [pow_zero, pow_one] at h)
  | succ s ih =>
    rw [pow_succ, pow_mul, pow_two] at h
    rcases mul_self_eq_one_iff.mp h with h | h
    · exact (ih h).imp_right fun ⟨i, hi, hx⟩ ↦ ⟨i, Nat.lt_succ_of_lt hi, hx⟩
    · exact .inr ⟨s, Nat.lt_succ_self s, h⟩

theorem vouches_of_prime (hn : n.Prime) (hsplit : n - 1 = d * 2 ^ s) (ha : 0 < a) (han : a < n) :
    Vouches n s d a := by
  have : Fact n.Prime := ⟨hn⟩
  have hne : (a : ZMod n) ≠ 0 := by
    rw [Ne, ZMod.natCast_eq_zero_iff]
    exact Nat.not_dvd_of_pos_of_lt ha han
  have hone : ((a : ZMod n) ^ d) ^ 2 ^ s = 1 := by
    rw [← pow_mul, ← hsplit]
    exact ZMod.pow_card_sub_one_eq_one hne
  rcases eq_one_or_exists_eq_neg_one hone with h | ⟨i, hi, h⟩
  · refine .inl ((ZMod.natCast_eq_natCast_iff _ _ _).mp ?_)
    rw [Nat.cast_pow, h, Nat.cast_one]
  · refine .inr ⟨i, hi, (ZMod.intCast_eq_intCast_iff _ _ _).mp ?_⟩
    rw [Int.cast_pow, Int.cast_natCast, pow_mul, h, Int.cast_neg, Int.cast_one]

def witnesses (n : Nat) : Nat → Random.Draw (List Nat)
  | 0, supply => some ([], supply)
  | k + 1, supply =>
    match Random.below (n - 3) supply with
    | none => none
    | some (a, rest) => (witnesses n k rest).map fun drawn ↦ ((a + 2) :: drawn.1, drawn.2)

theorem range_of_witnesses (h : witnesses n k supply = some (l, rest)) :
    l.length = k ∧ ∀ a ∈ l, 2 ≤ a ∧ a ≤ n - 2 := by
  induction k generalizing supply l with
  | zero =>
    cases h
    exact ⟨rfl, fun a ha ↦ absurd ha List.not_mem_nil⟩
  | succ k ih =>
    rw [witnesses] at h
    split at h
    next => cases h
    next x r hx =>
      obtain ⟨⟨m, r'⟩, hm, heq⟩ := Option.map_eq_some_iff.mp h
      cases heq
      have hlt := Random.lt_of_below hx
      obtain ⟨hlen, hall⟩ := ih hm
      refine ⟨congrArg Nat.succ hlen, fun a ha ↦ ?_⟩
      rcases List.mem_cons.mp ha with rfl | ha
      · omega
      · exact hall a ha

theorem exists_witnesses (hl : ∀ a ∈ l, 2 ≤ a ∧ a ≤ n - 2) :
    ∃ drawn, ∀ rest, witnesses n l.length (drawn ++ rest) = some (l, rest) := by
  induction l with
  | nil => exact ⟨[], fun rest ↦ rfl⟩
  | cons a l ih =>
    obtain ⟨drawn, hdrawn⟩ := ih fun x hx ↦ hl x (List.mem_cons_of_mem a hx)
    obtain ⟨ha, han⟩ := hl a List.mem_cons_self
    refine ⟨Random.own (Number.bitLength (n - 3)) (a - 2) ++ drawn, fun rest ↦ ?_⟩
    rw [List.length_cons, witnesses, List.append_assoc, Random.below_own (by omega)]
    dsimp only
    rw [hdrawn, Option.map_some, Nat.sub_add_cancel ha]

theorem tryWitnesses_eq_map (hpass : ∀ a, 2 ≤ a → a ≤ n - 2 → passes n a = true)
    (k : Nat) (supply : Bytes) :
    tryWitnesses n k supply = (witnesses n k supply).map fun drawn ↦ (true, drawn.2) := by
  induction k generalizing supply with
  | zero => rfl
  | succ k ih =>
    rw [tryWitnesses, witnesses]
    cases hx : Random.below (n - 3) supply with
    | none => rfl
    | some drawn =>
      have hlt := Random.lt_of_below hx
      dsimp only
      rw [if_pos (hpass _ (by omega) (by omega)), ih, Option.map_map]
      rfl

theorem tryWitnesses_eq_true_iff : tryWitnesses n k supply = some (true, rest) ↔
    ∃ l, witnesses n k supply = some (l, rest) ∧ ∀ a ∈ l, passes n a = true := by
  induction k generalizing supply with
  | zero =>
    refine ⟨fun h ↦ ?_, fun ⟨l, hl, _⟩ ↦ ?_⟩
    · cases h
      exact ⟨[], rfl, fun a ha ↦ absurd ha List.not_mem_nil⟩
    · cases hl
      rfl
  | succ k ih =>
    rw [tryWitnesses, witnesses]
    cases hx : Random.below (n - 3) supply with
    | none => exact iff_of_false nofun fun ⟨l, hl, _⟩ ↦ nomatch hl
    | some drawn =>
      dsimp only
      split
      next hpass =>
        rw [ih]
        refine ⟨fun ⟨l, hl, hall⟩ ↦ ⟨(drawn.1 + 2) :: l, by rw [hl]; rfl, ?_⟩,
          fun ⟨l, hl, hall⟩ ↦ ?_⟩
        · exact List.forall_mem_cons.mpr ⟨hpass, hall⟩
        · obtain ⟨⟨m, r⟩, hm, heq⟩ := Option.map_eq_some_iff.mp hl
          cases heq
          exact ⟨m, hm, (List.forall_mem_cons.mp hall).2⟩
      next hfail =>
        refine iff_of_false nofun fun ⟨l, hl, hall⟩ ↦ ?_
        obtain ⟨⟨m, r⟩, hm, heq⟩ := Option.map_eq_some_iff.mp hl
        cases heq
        exact hfail (List.forall_mem_cons.mp hall).1

def roundsOf (n rounds : Nat) : Nat :=
  if rounds = 0 then roundsForSize (Number.bitLength n) else rounds

theorem isProbable_of_le_one {n : Int} (hn : n ≤ 1) (rounds : Nat) (supply : Bytes) :
    isProbable n rounds supply = some (false, supply) := if_pos hn

theorem isProbable_eq (hn : 1 < n) (rounds : Nat) (supply : Bytes) :
    isProbable n rounds supply = match smallVerdict n with
      | some verdict => some (verdict, supply)
      | none => tryWitnesses n (roundsOf n rounds) supply :=
  if_neg (by omega)

theorem isProbable_of_dvd (hp : p.Prime) (hle : p ≤ 97) (hdvd : p ∣ n) (rounds : Nat)
    (supply : Bytes) : isProbable n rounds supply = some (decide n.Prime, supply) := by
  rcases Nat.lt_or_ge 1 n with hn | hn
  · rw [isProbable_eq hn, smallVerdict_of_dvd hp hle hdvd]
  · have hnot : ¬n.Prime := fun h ↦ Nat.not_lt.mpr hn h.one_lt
    rw [isProbable_of_le_one (by omega), decide_eq_false hnot]

def Rough (n : Nat) : Prop := ∀ p, p.Prime → p ∣ n → 97 < p

theorem rough_of_prime (hn : n.Prime) (hlt : 97 < n) : Rough n := by
  intro p hp hdvd
  rwa [(Nat.prime_dvd_prime_iff_eq hp hn).mp hdvd]

theorem Rough.isProbable_eq (hn : Rough n) (hlt : 1 < n) (rounds : Nat) (supply : Bytes) :
    isProbable n rounds supply = tryWitnesses n (roundsOf n rounds) supply := by
  rw [Prime.isProbable_eq hlt, smallVerdict_eq_none_iff.mpr hn]

/-- The number is odd, so its predecessor can be halved. -/
theorem Rough.passes_iff (hn : Rough n) (hlt : 1 < n) (hsplit : n - 1 = d * 2 ^ s)
    (hd : d % 2 = 1) (a : Nat) : passes n a = true ↔ Vouches n s d a := by
  cases s with
  | zero =>
    have heven : 2 ∣ n := by omega
    have h97 := hn 2 Nat.prime_two heven
    omega
  | succ s => exact Prime.passes_iff hlt hsplit hd a

theorem passes_of_prime (hn : n.Prime) (hlt : 97 < n) (ha : 2 ≤ a) (han : a ≤ n - 2) :
    passes n a = true := by
  obtain ⟨s, d, hd, hsplit⟩ := Nat.exists_eq_two_pow_mul_odd (by omega : n - 1 ≠ 0)
  rw [Nat.mul_comm] at hsplit
  rw [(rough_of_prime hn hlt).passes_iff hn.one_lt hsplit (Nat.odd_iff.mp hd)]
  exact vouches_of_prime hn hsplit (by omega) (by omega)

/-- A prime passes whatever the witnesses, and a multiple of one of the smallest primes does not.
Any other number passes just if each witness drawn vouches for it.  The witnesses lie between two
and `n - 2`, and every sequence of such numbers is drawn from some supply. -/
theorem isProbable_exact (rounds : Nat) (supply : Bytes) :
    (∀ n : Int, n ≤ 1 → isProbable n rounds supply = some (false, supply)) ∧
    (∀ n p : Nat, ¬n.Prime → p.Prime → p ≤ 97 → p ∣ n →
      isProbable n rounds supply = some (false, supply)) ∧
    (∀ n : Nat, n.Prime → n ≤ 97 → isProbable n rounds supply = some (true, supply)) ∧
    (∀ n : Nat, n.Prime → 97 < n → isProbable n rounds supply =
      (witnesses n (roundsOf n rounds) supply).map fun drawn ↦ (true, drawn.2)) ∧
    (∀ n s d : Nat, Rough n → n - 1 = d * 2 ^ s → d % 2 = 1 → ∀ rest,
      isProbable n rounds supply = some (true, rest) ↔
        ∃ l, witnesses n (roundsOf n rounds) supply = some (l, rest) ∧
          ∀ a ∈ l, Vouches n s d a) ∧
    (∀ (n k : Nat) (l : List Nat) (rest : Bytes), witnesses n k supply = some (l, rest) →
      l.length = k ∧ ∀ a ∈ l, 2 ≤ a ∧ a ≤ n - 2) ∧
    (∀ (n : Nat) (l : List Nat), (∀ a ∈ l, 2 ≤ a ∧ a ≤ n - 2) →
      ∃ drawn, ∀ rest, witnesses n l.length (drawn ++ rest) = some (l, rest)) := by
  refine ⟨fun n hn ↦ isProbable_of_le_one hn rounds supply, fun n p hn hp hle hdvd ↦ ?_,
    fun n hn hle ↦ ?_, fun n hn hlt ↦ ?_, fun n s d hn hsplit hd rest ↦ ?_,
    fun n k l rest ↦ range_of_witnesses, fun n l ↦ exists_witnesses⟩
  · rw [isProbable_of_dvd hp hle hdvd, decide_eq_false hn]
  · rw [isProbable_of_dvd hn hle dvd_rfl, decide_eq_true hn]
  · rw [(rough_of_prime hn hlt).isProbable_eq hn.one_lt]
    exact tryWitnesses_eq_map (fun a ↦ passes_of_prime hn hlt) _ _
  · have hlt : 1 < n := by
      have hpos : 0 < d * 2 ^ s := Nat.mul_pos (by omega) (Nat.two_pow_pos s)
      omega
    simp only [hn.isProbable_eq hlt, tryWitnesses_eq_true_iff, hn.passes_iff hlt hsplit hd]

/-- The last number is the product of 113 and 337, and five vouches for it. -/
theorem isProbable_exact_pseudoprime :
    isProbable (-7) 1 [] = some (false, []) ∧ isProbable 8633 1 [] = some (false, []) ∧
      isProbable 97 1 [] = some (true, []) ∧ isProbable 101 1 [5] = some (true, []) ∧
      (¬(38081).Prime ∧ isProbable 38081 1 [0, 3] = some (true, []) ∧ Vouches 38081 6 595 5) := by
  obtain ⟨hlow, hsmall, hsmallPrime, -⟩ := isProbable_exact 1 []
  obtain ⟨-, -, -, hprime, -⟩ := isProbable_exact 1 [5]
  obtain ⟨-, -, -, -, hrough, -⟩ := isProbable_exact 1 [0, 3]
  have h7 : witnesses 101 (roundsOf 101 1) [5] = some ([7], []) := by decide +kernel
  have h101 := hprime 101 (by decide +kernel) (by decide)
  rw [h7] at h101
  have h5 : witnesses 38081 (roundsOf 38081 1) [0, 3] = some ([5], []) := by decide +kernel
  have hpass : isProbable 38081 1 [0, 3] = some (true, []) := by decide +kernel
  have hnone : Rough 38081 := smallVerdict_eq_none_iff.mp (by decide +kernel)
  obtain ⟨l, hl, hall⟩ := (hrough 38081 6 595 hnone (by decide) (by decide) []).mp hpass
  cases h5.symm.trans hl
  have h8633 : ¬(8633).Prime :=
    Nat.not_prime_of_dvd_of_lt (m := 97) (by decide) (by decide) (by decide)
  have h38081 : ¬(38081).Prime :=
    Nat.not_prime_of_dvd_of_lt (m := 113) (by decide) (by decide) (by decide)
  have h97 : (97).Prime := by decide +kernel
  exact ⟨hlow (-7) (by decide), hsmall 8633 97 h8633 h97 (by decide) (by decide),
    hsmallPrime 97 h97 (by decide), h101, h38081, hpass, hall 5 List.mem_cons_self⟩

end ChainAnchor.Prime
