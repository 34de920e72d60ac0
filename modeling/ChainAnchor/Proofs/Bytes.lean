import ChainAnchor.Bytes
import Mathlib.Algebra.Group.Nat.Defs
import Mathlib.Data.List.Induction

namespace ChainAnchor.Bytes

theorem toNatLE_ofNatLE (width n : Nat) : toNatLE (ofNatLE width n) = n % 256 ^ width := by
  induction width generalizing n with
  | zero => simp [ofNatLE, toNatLE, Nat.mod_one]
  | succ width ih =>
    have hx : (UInt8.ofNat n).toNat = n % 256 := UInt8.toNat_ofNat'
    change 256 * toNatLE (ofNatLE width (n / 256)) + (UInt8.ofNat n).toNat = _
    rw [ih, hx, Nat.pow_succ, Nat.mul_comm (256 ^ width), Nat.mod_mul]
    omega

theorem toNatLE_lt (b : Bytes) : toNatLE b < 256 ^ b.length := by
  induction b with
  | nil => exact Nat.one_pos
  | cons x b ih =>
    change 256 * toNatLE b + x.toNat < 256 ^ (b.length + 1)
    have hx : x.toNat < 256 := x.toNat_lt
    rw [Nat.pow_succ]
    omega

theorem ofNat_shifted_add (n : Nat) (x : UInt8) : UInt8.ofNat (256 * n + x.toNat) = x := by
  have hx : x.toNat < 256 := x.toNat_lt
  apply UInt8.toNat_inj.mp
  rw [UInt8.toNat_ofNat']
  omega

theorem shifted_add_div (n : Nat) (x : UInt8) : (256 * n + x.toNat) / 256 = n := by
  have hx : x.toNat < 256 := x.toNat_lt
  omega

theorem ofNatLE_toNatLE (b : Bytes) : ofNatLE b.length (toNatLE b) = b := by
  induction b with
  | nil => rfl
  | cons x b ih =>
    change UInt8.ofNat (256 * toNatLE b + x.toNat) ::
      ofNatLE b.length ((256 * toNatLE b + x.toNat) / 256) = x :: b
    rw [ofNat_shifted_add, shifted_add_div, ih]

theorem toNatBE_ofNatBE (width n : Nat) : toNatBE (ofNatBE width n) = n % 256 ^ width := by
  rw [ofNatBE, toNatBE_reverse, toNatLE_ofNatLE]

theorem toNatBE_ofNatBE_of_lt {width n : Nat} (hn : n < 256 ^ width) :
    toNatBE (ofNatBE width n) = n := by
  rw [toNatBE_ofNatBE, Nat.mod_eq_of_lt hn]

/-- The bytes of a number stand before a tail, so reading goes on from the number. -/
theorem toNatBE_consNat (n : Nat) (tail : Bytes) :
    toNatBE (consNat n tail) = tail.foldl (fun n x ↦ 256 * n + x.toNat) n := by
  fun_induction consNat n tail with
  | case1 tail => rfl
  | case2 n tail hn ih =>
    have hx : (UInt8.ofNat n).toNat = n % 256 := UInt8.toNat_ofNat'
    rw [ih, List.foldl_cons, hx, Nat.div_add_mod]

theorem toNatBE_minimalBE (n : Nat) : toNatBE (minimalBE n) = n := toNatBE_consNat n []

theorem length_consNat_le {width n : Nat} (hn : n < 256 ^ width) (tail : Bytes) :
    (consNat n tail).length ≤ width + tail.length := by
  induction width generalizing n tail with
  | zero =>
    obtain rfl : n = 0 := by omega
    rw [consNat, if_pos rfl]
    omega
  | succ width ih =>
    rw [consNat]
    split
    · omega
    · have hq : n / 256 < 256 ^ width := Nat.div_lt_of_lt_mul (by rwa [Nat.pow_succ'] at hn)
      have hl := ih hq (UInt8.ofNat n :: tail)
      rw [List.length_cons] at hl
      omega

theorem length_minimalBE_le {width n : Nat} (hn : n < 256 ^ width) :
    (minimalBE n).length ≤ width := length_consNat_le hn []

theorem toNatBE_lt (b : Bytes) : toNatBE b < 256 ^ b.length := by
  have hlt := toNatLE_lt b.reverse
  rwa [← toNatBE_reverse, List.reverse_reverse, List.length_reverse] at hlt

theorem ofNatBE_toNatBE (b : Bytes) : ofNatBE b.length (toNatBE b) = b := by
  have hb := ofNatLE_toNatLE b.reverse
  rw [List.length_reverse, ← toNatBE_reverse, List.reverse_reverse] at hb
  rw [ofNatBE, hb, List.reverse_reverse]

theorem ofNatBE_mod (width n : Nat) : ofNatBE width (n % 256 ^ width) = ofNatBE width n := by
  have h := ofNatBE_toNatBE (ofNatBE width n)
  rwa [length_ofNatBE, toNatBE_ofNatBE] at h

theorem toNatBE_concat (b : Bytes) (x : UInt8) : toNatBE (b ++ [x]) = 256 * toNatBE b + x.toNat :=
  List.foldl_append

theorem toNatBE_append (b c : Bytes) :
    toNatBE (b ++ c) = toNatBE b * 256 ^ c.length + toNatBE c := by
  induction c using List.reverseRecOn with
  | nil => simp [toNatBE]
  | append_singleton c x ih =>
    rw [← List.append_assoc, toNatBE_concat, toNatBE_concat, ih, List.length_append,
      List.length_singleton, Nat.pow_succ, ← Nat.mul_assoc]
    omega

theorem toNatBE_cons (x : UInt8) (b : Bytes) :
    toNatBE (x :: b) = x.toNat * 256 ^ b.length + toNatBE b := by
  have hx : toNatBE [x] = x.toNat := (toNatBE_concat [] x).trans (Nat.zero_add _)
  exact (toNatBE_append [x] b).trans (by rw [hx])

theorem toNatBE_take (n : Nat) (b : Bytes) :
    toNatBE (b.take n) = toNatBE b / 256 ^ (b.length - n) := by
  have hlow := toNatBE_lt (b.drop n)
  have hsplit := toNatBE_append (b.take n) (b.drop n)
  rw [List.take_append_drop, List.length_drop] at hsplit
  rw [List.length_drop] at hlow
  rw [hsplit, Nat.mul_comm, Nat.mul_add_div (Nat.pow_pos (by decide)), Nat.div_eq_of_lt hlow,
    Nat.add_zero]

theorem toNatBE_replicate_zero (n : Nat) : toNatBE (List.replicate n 0) = 0 := by
  induction n with
  | zero => rfl
  | succ n ih => exact ih

theorem consNat_zero (tail : Bytes) : consNat 0 tail = tail := by rw [consNat, if_pos rfl]

/-- The bytes of a number that bytes spell are these bytes, but for the zeros in front. -/
theorem consNat_toNatBE (b tail : Bytes) :
    consNat (toNatBE b) tail = b.dropWhile (· == 0) ++ tail := by
  induction b using List.reverseRecOn generalizing tail with
  | nil => exact consNat_zero tail
  | append_singleton b x ih =>
    have hempty : b.dropWhile (· == 0) = [] ↔ toNatBE b = 0 := by
      have hb := ih []
      rw [List.append_nil] at hb
      refine ⟨fun h ↦ ?_, fun h ↦ ?_⟩
      · have hn := toNatBE_consNat (toNatBE b) []
        rw [hb, h] at hn
        exact hn.symm
      · rw [← hb, h, consNat_zero]
    rw [toNatBE_concat, List.dropWhile_append]
    by_cases hn : 256 * toNatBE b + x.toNat = 0
    · have h0 : x = 0 := UInt8.toNat_inj.mp (by rw [UInt8.toNat_zero]; omega)
      rw [hn, consNat_zero, hempty.mpr (by omega), h0]
      rfl
    · rw [consNat, if_neg hn, ofNat_shifted_add, shifted_add_div, ih]
      cases hd : b.dropWhile (· == 0) with
      | nil =>
        have hne : x ≠ 0 := fun h0 ↦ hn (by rw [hempty.mp hd, h0]; rfl)
        simp [hne]
      | cons y l => simp

theorem minimalBE_toNatBE (b : Bytes) : minimalBE (toNatBE b) = b.dropWhile (· == 0) :=
  (consNat_toNatBE b []).trans (List.append_nil _)

theorem toNatBE_dropWhile (b : Bytes) : toNatBE (b.dropWhile (· == 0)) = toNatBE b := by
  rw [← minimalBE_toNatBE, toNatBE_minimalBE]

theorem length_minimalBE_le_iff {width n : Nat} :
    (minimalBE n).length ≤ width ↔ n < 256 ^ width := by
  refine ⟨fun hl ↦ ?_, length_minimalBE_le⟩
  have hlt := toNatBE_lt (minimalBE n)
  rw [toNatBE_minimalBE] at hlt
  exact Nat.lt_of_lt_of_le hlt (Nat.pow_le_pow_right (by decide) hl)

theorem consNat_eq (n : Nat) (tail : Bytes) : consNat n tail = minimalBE n ++ tail := by
  have hn := toNatBE_minimalBE n
  have hb := consNat_toNatBE (minimalBE n) tail
  rwa [← minimalBE_toNatBE, hn] at hb

theorem minimalBE_concat {n : Nat} (hn : n ≠ 0) :
    minimalBE n = minimalBE (n / 256) ++ [UInt8.ofNat n] := by
  rw [← consNat_eq, minimalBE, consNat, if_neg hn]

/-- A fixed width cuts the fewest bytes off at their high end, or fills it with zeros. -/
theorem ofNatLE_eq (width n : Nat) :
    ofNatLE width n = (minimalBE n).reverse.take width ++
      List.replicate (width - (minimalBE n).length) 0 := by
  induction width generalizing n with
  | zero => simp [ofNatLE]
  | succ width ih =>
    rw [ofNatLE, ih]
    by_cases hn : n = 0
    · simp [hn, minimalBE, consNat_zero, List.replicate_succ]
    · simp [minimalBE_concat hn]

end ChainAnchor.Bytes
