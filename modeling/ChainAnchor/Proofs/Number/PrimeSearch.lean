import ChainAnchor.Proofs.Number.ProbablePrime
import Mathlib.Logic.Relation

namespace ChainAnchor

theorem Number.bitLength_eq_iff {n size : Nat} (hsize : 0 < size) :
    bitLength n = size ↔ 2 ^ (size - 1) ≤ n ∧ n < 2 ^ size := by
  obtain ⟨s, rfl⟩ := Nat.exists_eq_add_one_of_ne_zero hsize.ne'
  rw [bitLength, Nat.add_sub_cancel]
  split
  next h =>
    have hpos := Nat.two_pow_pos s
    omega
  next h => rw [Nat.add_right_cancel_iff, Nat.log2_eq_iff h]

namespace Prime

variable {n k p x size rounds : Nat} {b safe : Bool} {supply tested rest : Bytes}

theorem witnesses_of_tryWitnesses (h : tryWitnesses n k supply = some (b, rest)) :
    ∃ l, witnesses n l.length supply = some (l, rest) ∧ b = l.all (passes n) := by
  fun_induction tryWitnesses n k supply with
  | case1 supply =>
    cases h
    exact ⟨[], rfl, rfl⟩
  | case2 => cases h
  | case3 k supply a r hx hpass ih =>
    obtain ⟨l, hl, hb⟩ := ih h
    refine ⟨(a + 2) :: l, ?_, ?_⟩
    · simp only [List.length_cons, witnesses, hx, hl, Option.map_some]
    · rw [List.all_cons, hpass, Bool.true_and, hb]
  | case4 k supply a r hx hfail =>
    cases h
    refine ⟨[a + 2], ?_, ?_⟩
    · simp only [List.length_singleton, witnesses, hx, Option.map_some]
    · rw [List.all_cons, Bool.eq_false_iff.mpr hfail, Bool.false_and]

/-- Whatever the test answers, it answers after witnesses from two to `n - 2`, and none but these
decide about a number that division leaves open. -/
theorem witnesses_of_isProbable {n : Int} (h : isProbable n rounds supply = some (b, rest)) :
    ∃ l, witnesses n.toNat l.length supply = some (l, rest) ∧
      (∀ a ∈ l, 2 ≤ (a : Int) ∧ (a : Int) ≤ n - 2) ∧
      (1 < n → Rough n.toNat → b = l.all (passes n.toNat)) := by
  rw [isProbable] at h
  split at h
  next hle =>
    cases h
    exact ⟨[], rfl, fun a ha ↦ absurd ha List.not_mem_nil, fun hlt ↦ absurd hle (by omega)⟩
  next hgt =>
    split at h
    next verdict hsmall =>
      cases h
      refine ⟨[], rfl, fun a ha ↦ absurd ha List.not_mem_nil, fun _ hrough ↦ ?_⟩
      rw [smallVerdict_eq_none_iff.mpr hrough] at hsmall
      cases hsmall
    next =>
      obtain ⟨l, hl, hb⟩ := witnesses_of_tryWitnesses h
      refine ⟨l, hl, fun a ha ↦ ?_, fun _ _ ↦ hb⟩
      have hrange := (range_of_witnesses hl).2 a ha
      omega

theorem exists_isProbable_of_prime (hp : p.Prime) (rounds : Nat) :
    ∃ drawn, ∀ rest, isProbable p rounds (drawn ++ rest) = some (true, rest) := by
  rcases Nat.lt_or_ge 97 p with hlt | hle
  · have htwo : ∀ a ∈ List.replicate (roundsOf p rounds) 2, 2 ≤ a ∧ a ≤ p - 2 := by
      intro a ha
      rw [List.eq_of_mem_replicate ha]
      omega
    obtain ⟨drawn, hdrawn⟩ := exists_witnesses htwo
    refine ⟨drawn, fun rest ↦ ?_⟩
    rw [List.length_replicate] at hdrawn
    rw [(rough_of_prime hp hlt).isProbable_eq hp.one_lt,
      tryWitnesses_eq_map fun a ↦ passes_of_prime hp hlt, hdrawn, Option.map_some]
  · refine ⟨[], fun rest ↦ ?_⟩
    rw [isProbable_of_dvd hp hle dvd_rfl, decide_eq_true hp, List.nil_append]

/-- What a drawn number is turned into: its highest bit and its lowest are set. -/
def candidate (size x : Nat) : Nat := x ||| Number.powerOfTwo (size - 1) ||| 1

theorem candidate_mod_two (size x : Nat) : candidate size x % 2 = 1 :=
  Nat.or_mod_two_eq_one.mpr (.inr rfl)

theorem bitLength_candidate (hsize : 0 < size) (hx : x < 2 ^ size) :
    Number.bitLength (candidate size x) = size := by
  have htop : 2 ^ (size - 1) < 2 ^ size := Nat.pow_lt_pow_right (by decide) (by omega)
  have hone : 1 < 2 ^ size := Nat.one_lt_two_pow hsize.ne'
  refine (Number.bitLength_eq_iff hsize).mpr ⟨?_, ?_⟩
  · exact Nat.le_trans Nat.right_le_or Nat.left_le_or
  · exact Nat.or_lt_two_pow (Nat.or_lt_two_pow hx htop) hone

theorem or_two_pow_eq_self {i : Nat} (h : n.testBit i = true) : n ||| 2 ^ i = n := by
  refine Nat.eq_of_testBit_eq fun j ↦ ?_
  rw [Nat.testBit_or, Nat.testBit_two_pow]
  by_cases hij : i = j
  · rw [← hij, h, Bool.true_or]
  · rw [decide_eq_false hij, Bool.or_false]

theorem candidate_eq_self (hsize : 0 < size) (hodd : p % 2 = 1)
    (hp : Number.bitLength p = size) : candidate size p = p := by
  obtain ⟨hle, hlt⟩ := (Number.bitLength_eq_iff hsize).mp hp
  have htop : p.testBit (size - 1) = true :=
    Nat.testBit_of_two_pow_le_and_two_pow_add_one_gt hle (by rwa [Nat.sub_add_cancel hsize])
  have hlow : p.testBit 0 = true := by rw [Nat.testBit_zero, hodd, decide_eq_true rfl]
  calc candidate size p = p ||| 2 ^ (size - 1) ||| 2 ^ 0 := rfl
    _ = p := by rw [or_two_pow_eq_self htop, or_two_pow_eq_self hlow]

def Passes (safe : Bool) (p : Nat) (supply rest : Bytes) : Prop :=
  ∃ left, isProbable p 0 supply = some (true, left) ∧
    if safe then isProbable ((p - 1) / 2 : Nat) 0 left = some (true, rest) else rest = left

theorem accepts_eq_true_iff (hodd : p % 2 = 1) :
    accepts safe p supply = some (true, rest) ↔ Passes safe p supply rest := by
  have hhalf : (p - 1) / 2 = p / 2 := by omega
  rw [accepts, Passes, hhalf]
  split
  next left hp =>
    rw [hp]
    cases safe with
    | false =>
      simp only [Bool.false_eq_true, if_false, Option.some.injEq, Prod.mk.injEq, true_and]
      exact ⟨fun h ↦ ⟨left, rfl, h.symm⟩, fun ⟨_, hleft, hrest⟩ ↦ hleft.trans hrest.symm⟩
    | true =>
      simp only [if_true, Option.some.injEq, Prod.mk.injEq, true_and]
      exact ⟨fun h ↦ ⟨left, rfl, h⟩, fun ⟨_, hleft, h⟩ ↦ hleft ▸ h⟩
  next hnot => exact iff_of_false (hnot rest) fun ⟨left, hp, _⟩ ↦ hnot left hp

def Refuses (size : Nat) (safe : Bool) (supply rest : Bytes) : Prop :=
  ∃ x tested, Random.bits size supply = some (x, tested) ∧
    accepts safe (candidate size x) tested = some (false, rest)

theorem search_eq (hsize : 0 < size) (safe : Bool) (supply : Bytes) :
    search size safe supply = match Random.bits size supply with
      | none => none
      | some (x, tested) => match accepts safe (candidate size x) tested with
        | none => none
        | some (true, rest) => some (candidate size x, rest)
        | some (false, rest) => search size safe rest := by
  rw [search, if_neg hsize.ne']
  split
  next hx => rw [hx]
  next x tested hx =>
    rw [hx]
    dsimp only
    split
    all_goals next ha => rw [candidate, ha]

theorem search_of_refuses (hsize : 0 < size) (h : Refuses size safe supply rest) :
    search size safe supply = search size safe rest := by
  obtain ⟨x, tested, hx, ha⟩ := h
  rw [search_eq hsize safe supply, hx]
  dsimp only
  rw [ha]

theorem search_of_passes (hsize : 0 < size) (hx : Random.bits size supply = some (x, tested))
    (hp : Passes safe (candidate size x) tested rest) :
    search size safe supply = some (candidate size x, rest) := by
  rw [search_eq hsize, hx]
  dsimp only
  rw [(accepts_eq_true_iff (candidate_mod_two size x)).mpr hp]

/-- The search goes through rounds that refuse and ends with the first candidate that passes. -/
theorem search_eq_some_iff (hsize : 0 < size) : search size safe supply = some (p, rest) ↔
    ∃ before x tested, Relation.ReflTransGen (Refuses size safe) supply before ∧
      Random.bits size before = some (x, tested) ∧ p = candidate size x ∧
      Passes safe p tested rest := by
  constructor
  · intro h
    fun_induction search size safe supply with
    | case1 => cases h
    | case2 => cases h
    | case3 => cases h
    | case4 supply _ x tested hx q left ha =>
      obtain ⟨hq, hleft⟩ := Prod.mk.inj (Option.some.inj h)
      rw [← hq, ← hleft]
      have hp := (accepts_eq_true_iff (candidate_mod_two size x)).mp ha
      exact ⟨supply, x, tested, .refl, hx, rfl, hp⟩
    | case5 supply _ x tested hx q left ha ih =>
      obtain ⟨before, y, tested', hrun, hround⟩ := ih h
      exact ⟨before, y, tested', .head ⟨x, tested, hx, ha⟩ hrun, hround⟩
  · rintro ⟨before, x, tested, hrun, hx, rfl, hp⟩
    induction hrun using Relation.ReflTransGen.head_induction_on with
    | refl => exact search_of_passes hsize hx hp
    | head hfirst _ ih => rw [search_of_refuses hsize hfirst, ih]

theorem odd_of_search (hsize : 0 < size) (h : search size safe supply = some (p, rest)) :
    p % 2 = 1 := by
  obtain ⟨-, x, -, -, -, rfl, -⟩ := (search_eq_some_iff hsize).mp h
  exact candidate_mod_two size x

theorem bitLength_of_search (hsize : 0 < size) (h : search size safe supply = some (p, rest)) :
    Number.bitLength p = size := by
  obtain ⟨before, x, tested, -, hx, rfl, -⟩ := (search_eq_some_iff hsize).mp h
  exact bitLength_candidate hsize (Random.lt_of_bits hx)

theorem exists_passes_of_prime (hp : p.Prime) (hhalf : safe = true → ((p - 1) / 2).Prime) :
    ∃ drawn, ∀ rest, Passes safe p (drawn ++ rest) rest := by
  obtain ⟨drawn, hdrawn⟩ := exists_isProbable_of_prime hp 0
  cases safe with
  | false => exact ⟨drawn, fun rest ↦ ⟨rest, hdrawn rest, rfl⟩⟩
  | true =>
    obtain ⟨drawn', hdrawn'⟩ := exists_isProbable_of_prime (hhalf rfl) 0
    refine ⟨drawn ++ drawn', fun rest ↦ ⟨drawn' ++ rest, ?_, hdrawn' rest⟩⟩
    rw [List.append_assoc, hdrawn]

theorem exists_search_of_prime (hsize : 0 < size) (hp : p.Prime) (hodd : p % 2 = 1)
    (hlen : Number.bitLength p = size) (hhalf : safe = true → ((p - 1) / 2).Prime) :
    ∃ drawn, ∀ rest, search size safe (drawn ++ rest) = some (p, rest) := by
  obtain ⟨drawn, hdrawn⟩ := exists_passes_of_prime hp hhalf
  have hlt := ((Number.bitLength_eq_iff hsize).mp hlen).2
  have hself := candidate_eq_self hsize hodd hlen
  refine ⟨Random.own size p ++ drawn, fun rest ↦ ?_⟩
  have hfound := search_of_passes hsize (Random.bits_own hlt (drawn ++ rest))
    (hself.symm ▸ hdrawn rest)
  rwa [hself, ← List.append_assoc] at hfound

theorem generate_eq_invalid_iff (size : Nat) (safe : Bool) :
    generate size safe = .error .invalidBitSize ↔ size < if safe then 3 else 2 := by
  by_cases h : size < if safe then 3 else 2
  · exact iff_of_true (if_pos h) h
  · rw [generate, if_neg h]
    exact iff_of_false nofun h

end Prime

/-- The numbers drawn of so many bits, or below a bound, are all such numbers and no others; the
first of the bytes is masked to get there.  The witnesses of a test lie between two and `n - 2`.  A
search for a prime ends just where, after rounds that refuse, a candidate passes; it is odd and of
the size asked for, and each odd prime of that size is found from some supply. -/
theorem randomNumbers_exact :
    (∀ k, Random.Spans (Random.bits k) (· < 2 ^ k)) ∧
    (∀ k supply, Random.bits k supply = (Random.bytes ((k + 7) / 8) supply).map fun drawn ↦
      (Bytes.toNatBE (Random.masked k drawn.1), drawn.2)) ∧
    (∀ bound, (Random.range bound = .error .invalidRange ↔ bound ≤ 0) ∧
      (0 < bound → ∃ draw, Random.range bound = .ok draw ∧
        Random.Spans draw fun x ↦ (x : Int) < bound)) ∧
    (∀ (n : Int) rounds supply b rest, Prime.isProbable n rounds supply = some (b, rest) →
      ∃ l, Prime.witnesses n.toNat l.length supply = some (l, rest) ∧
        (∀ a ∈ l, 2 ≤ (a : Int) ∧ (a : Int) ≤ n - 2) ∧
        (1 < n → Prime.Rough n.toNat → b = l.all (Prime.passes n.toNat))) ∧
    (∀ size safe,
      (Prime.generate size safe = .error .invalidBitSize ↔ size < if safe then 3 else 2) ∧
      ((if safe then 3 else 2) ≤ size → ∃ draw, Prime.generate size safe = .ok draw ∧
        (∀ supply p rest, draw supply = some (p, rest) ↔
          ∃ before x tested, Relation.ReflTransGen (Prime.Refuses size safe) supply before ∧
            Random.bits size before = some (x, tested) ∧ p = Prime.candidate size x ∧
            Prime.Passes safe p tested rest) ∧
        (∀ supply p rest, draw supply = some (p, rest) →
          p % 2 = 1 ∧ Number.bitLength p = size) ∧
        (∀ p, p.Prime → p % 2 = 1 → Number.bitLength p = size →
          (safe = true → ((p - 1) / 2).Prime) →
          ∃ drawn, ∀ rest, draw (drawn ++ rest) = some (p, rest)))) := by
  refine ⟨Random.spans_bits, Random.bits_eq_map,
    fun bound ↦ ⟨Random.range_eq_invalid_iff bound, Random.range_of_pos⟩,
    fun n rounds supply b rest ↦ Prime.witnesses_of_isProbable,
    fun size safe ↦ ⟨Prime.generate_eq_invalid_iff size safe, fun hle ↦ ?_⟩⟩
  have hsize : 0 < size := by
    split at hle <;> omega
  exact ⟨Prime.search size safe, if_neg (Nat.not_lt.mpr hle),
    fun supply p rest ↦ Prime.search_eq_some_iff hsize,
    fun supply p rest h ↦ ⟨Prime.odd_of_search hsize h, Prime.bitLength_of_search hsize h⟩,
    fun p ↦ Prime.exists_search_of_prime hsize⟩

/-- The bytes 255 and 127 are beyond their ranges, so others are drawn, and 105 is refused as a
multiple of three.  The half of 107 is 53. -/
theorem randomNumbers_exact_redrawn :
    (Random.bits 12 [0xab, 0xcd] = some (0xbcd, []) ∧ 0xbcd < 2 ^ 12 ∧
      ∃ drawn, ∀ rest, Random.bits 12 (drawn ++ rest) = some (0xfff, rest)) ∧
    (∃ draw, Random.range 1000 = .ok draw ∧ draw [0xff, 0xff, 1, 2] = some (258, []) ∧
      (258 : Int) < 1000 ∧ ∃ drawn, ∀ rest, draw (drawn ++ rest) = some (999, rest)) ∧
    (Prime.isProbable 101 1 [127, 5] = some (true, []) ∧
      ∃ l, Prime.witnesses 101 l.length [127, 5] = some (l, []) ∧
        ∀ a ∈ l, 2 ≤ (a : Int) ∧ (a : Int) ≤ 99) ∧
    (∃ draw, Prime.generate 7 true = .ok draw ∧
      draw (105 :: 107 :: List.replicate 34 5) = some (107, []) ∧
      (107 % 2 = 1 ∧ Number.bitLength 107 = 7) ∧
      ∃ drawn, ∀ rest, draw (drawn ++ rest) = some (107, rest)) := by
  obtain ⟨hbits, -, hrange, htest, hsearch⟩ := randomNumbers_exact
  have h12 : Random.bits 12 [0xab, 0xcd] = some (0xbcd, []) := by decide
  have h101 : Prime.isProbable 101 1 [127, 5] = some (true, []) := by decide +kernel
  have h107 : Prime.search 7 true (105 :: 107 :: List.replicate 34 5) = some (107, []) := by
    decide +kernel
  obtain ⟨draw, hdraw, hbelow⟩ := (hrange 1000).2 (by decide)
  obtain rfl : Random.below 1000 = draw := Except.ok.inj hdraw
  have h258 : Random.below 1000 [0xff, 0xff, 1, 2] = some (258, []) := by decide +kernel
  obtain ⟨l, hl, hwithin, -⟩ := htest 101 1 _ _ _ h101
  obtain ⟨draw, hgenerate, -, hsized, hprimes⟩ := (hsearch 7 true).2 (by decide)
  obtain rfl : Prime.search 7 true = draw := Except.ok.inj hgenerate
  exact ⟨⟨h12, (hbits 12).within h12, (hbits 12).reached (by decide)⟩,
    ⟨_, hdraw, h258, hbelow.within h258, hbelow.reached (by decide)⟩, ⟨h101, l, hl, hwithin⟩,
    ⟨_, hgenerate, h107, hsized _ _ _ h107,
      hprimes 107 (by decide +kernel) (by decide) (by decide) fun _ ↦ by decide +kernel⟩⟩

end ChainAnchor
