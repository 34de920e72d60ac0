import ChainAnchor.Number.Random
import ChainAnchor.Proofs.Bytes

namespace ChainAnchor

theorem Number.lt_two_pow_bitLength (n : Nat) : n < 2 ^ bitLength n := by
  rw [bitLength]
  split
  next h => rw [h]; exact Nat.one_pos
  next => exact Nat.lt_log2_self

namespace Random

variable {bound k x : Nat} {supply rest b : Bytes}

/-- What a draw can give: only what has the property, and all of that, each from bytes of its own
whatever follows them. -/
structure Spans {α : Type} (draw : Draw α) (P : α → Prop) : Prop where
  within : ∀ {supply x rest}, draw supply = some (x, rest) → P x
  reached : ∀ {x}, P x → ∃ drawn, ∀ rest, draw (drawn ++ rest) = some (x, rest)

theorem bytes_append (b rest : Bytes) : bytes b.length (b ++ rest) = some (b, rest) := by
  rw [bytes, List.take_left, List.drop_left]
  exact if_neg (Nat.lt_irrefl _)

def own (k x : Nat) : Bytes := Bytes.ofNatBE ((k + 7) / 8) x

theorem toNatBE_own (hx : x < 2 ^ k) : Bytes.toNatBE (own k x) = x := by
  refine Bytes.toNatBE_ofNatBE_of_lt (Nat.lt_of_lt_of_le hx ?_)
  rw [show 256 = 2 ^ 8 from rfl, ← Nat.pow_mul]
  exact Nat.pow_le_pow_right (by decide) (by omega)

theorem bits_own (hx : x < 2 ^ k) (rest : Bytes) : bits k (own k x ++ rest) = some (x, rest) := by
  have hb := bytes_append (own k x) rest
  rw [own, Bytes.length_ofNatBE, ← own] at hb
  rw [bits, hb]
  dsimp only
  rw [toNatBE_own hx]
  exact congrArg (fun y ↦ some (y, rest)) (Nat.mod_eq_of_lt hx)

theorem lt_of_bits (h : bits k supply = some (x, rest)) : x < 2 ^ k := by
  rw [bits] at h
  split at h
  next => cases h
  next =>
    cases h
    exact Nat.mod_lt _ (Nat.two_pow_pos k)

theorem spans_bits (k : Nat) : Spans (bits k) (· < 2 ^ k) :=
  ⟨lt_of_bits, fun hx ↦ ⟨own k _, bits_own hx⟩⟩

/-- The bytes of a number of `k` bits: the bits beyond these are cleared in the first. -/
def masked (k : Nat) : Bytes → Bytes
  | [] => []
  | x :: b => (x &&& 0xff >>> UInt8.ofNat (8 * (b.length + 1) - k)) :: b

theorem toNat_and_shiftRight (x : UInt8) {s : Nat} (hs : s < 8) :
    (x &&& 0xff >>> UInt8.ofNat s).toNat = x.toNat % 2 ^ (8 - s) := by
  have hmask : ∀ s < 8, (0xff >>> UInt8.ofNat s : UInt8).toNat = 2 ^ (8 - s) - 1 := by decide
  rw [UInt8.toNat_and, hmask s hs, Nat.and_two_pow_sub_one_eq_mod]

theorem toNatBE_masked (hk : k ≤ 8 * b.length) (hb : 8 * b.length < k + 8) :
    Bytes.toNatBE (masked k b) = Bytes.toNatBE b % 2 ^ k := by
  cases b with
  | nil =>
    obtain rfl : k = 0 := Nat.le_zero.mp hk
    rfl
  | cons x b =>
    rw [List.length_cons] at hk hb
    have hlow := Bytes.toNatBE_lt b
    have hwidth : 2 ^ k = 256 ^ b.length * 2 ^ (8 - (8 * (b.length + 1) - k)) := by
      rw [show 256 = 2 ^ 8 from rfl, ← Nat.pow_mul, ← Nat.pow_add]
      congr 1
      omega
    have hrest : (x.toNat * 256 ^ b.length + Bytes.toNatBE b) % 256 ^ b.length =
        Bytes.toNatBE b := by
      rw [Nat.mul_add_mod_self_right, Nat.mod_eq_of_lt hlow]
    have hfirst : (x.toNat * 256 ^ b.length + Bytes.toNatBE b) / 256 ^ b.length = x.toNat := by
      rw [Nat.mul_comm, Nat.mul_add_div (Nat.pow_pos (by decide)), Nat.div_eq_of_lt hlow,
        Nat.add_zero]
    rw [masked, Bytes.toNatBE_cons, toNat_and_shiftRight x (by omega), Bytes.toNatBE_cons, hwidth,
      Nat.mod_mul, hrest, hfirst, Nat.add_comm, Nat.mul_comm]

theorem bits_eq_map (k : Nat) (supply : Bytes) : bits k supply =
    (bytes ((k + 7) / 8) supply).map fun drawn ↦ (Bytes.toNatBE (masked k drawn.1), drawn.2) := by
  rw [bits]
  cases hb : bytes ((k + 7) / 8) supply with
  | none => rfl
  | some drawn =>
    have hlen := (length_of_bytes hb).1
    rw [Option.map_some, toNatBE_masked (by omega) (by omega)]
    rfl

theorem below_own (hx : x < bound) (rest : Bytes) :
    below bound (own (Number.bitLength bound) x ++ rest) = some (x, rest) := by
  have hb := bits_own (Nat.lt_trans hx (Number.lt_two_pow_bitLength bound)) rest
  rw [below, if_neg (Nat.ne_zero_of_lt hx)]
  split
  next hnone => rw [hb] at hnone; cases hnone
  next y r hsome =>
    rw [hb] at hsome
    cases hsome
    exact if_pos hx

theorem lt_of_below (h : below bound supply = some (x, rest)) : x < bound := by
  fun_induction below bound supply with
  | case1 => cases h
  | case2 => cases h
  | case3 supply _ y r _ hlt => cases h; exact hlt
  | case4 supply _ y r _ _ ih => exact ih h

theorem spans_below (bound : Nat) : Spans (below bound) (· < bound) :=
  ⟨lt_of_below, fun hx ↦ ⟨own (Number.bitLength bound) _, below_own hx⟩⟩

theorem range_of_pos {bound : Int} (hpos : 0 < bound) :
    ∃ draw, range bound = .ok draw ∧ Spans draw fun x ↦ (x : Int) < bound := by
  refine ⟨below bound.toNat, if_neg (Int.not_le.mpr hpos), ?_⟩
  have hlt (x : Nat) : x < bound.toNat ↔ (x : Int) < bound := Int.lt_toNat
  simpa only [hlt] using spans_below bound.toNat

theorem range_eq_invalid_iff (bound : Int) : range bound = .error .invalidRange ↔ bound ≤ 0 := by
  refine ⟨fun h ↦ ?_, fun h ↦ if_pos h⟩
  by_contra hpos
  obtain ⟨draw, hdraw, -⟩ := range_of_pos (Int.not_le.mp hpos)
  cases h.symm.trans hdraw

end Random

end ChainAnchor
