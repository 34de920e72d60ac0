import ChainAnchor.Number.Compact
import ChainAnchor.Proofs.Number.Mpi

namespace ChainAnchor

namespace Bytes

variable {b : Bytes} {n : Nat}

def cleared (n : Nat) (b : Bytes) : Bytes := b.take n ++ List.replicate (b.length - n) 0

theorem length_cleared (n : Nat) (b : Bytes) : (cleared n b).length = b.length := by
  rw [cleared, List.length_append, List.length_take, List.length_replicate]
  omega

theorem cleared_of_length_le (hb : b.length ≤ n) : cleared n b = b := by
  rw [cleared, List.take_of_length_le hb, Nat.sub_eq_zero_of_le hb, List.replicate_zero,
    List.append_nil]

theorem cleared_cons (n : Nat) (x : UInt8) (b : Bytes) :
    cleared (n + 1) (x :: b) = x :: cleared n b := by
  rw [cleared, List.take_succ_cons, List.length_cons, Nat.add_sub_add_right]
  rfl

theorem toNatBE_cleared (n : Nat) (b : Bytes) :
    toNatBE (cleared n b) = toNatBE b / 256 ^ (b.length - n) * 256 ^ (b.length - n) := by
  rw [cleared, toNatBE_append, toNatBE_take, List.length_replicate, toNatBE_replicate_zero,
    Nat.add_zero]

end Bytes

namespace Mpi

variable {b : Bytes}

theorem ofBody_eq_zero_iff (hb : Minimal b) : ofBody b = 0 ↔ b = [] := by
  refine ⟨fun h ↦ ?_, fun h ↦ h ▸ rfl⟩
  rw [← body_ofBody_of_minimal hb, h, body_zero]

theorem minimal_cleared (n : Nat) (hb : Minimal b) : Minimal (b.cleared (n + 2)) := by
  match b with
  | [] => rwa [Bytes.cleared_of_length_le (Nat.zero_le _)]
  | [x] => rwa [Bytes.cleared_of_length_le (Nat.le_add_left 1 _)]
  | x :: y :: tail =>
    rw [Bytes.cleared_cons, Bytes.cleared_cons]
    exact hb

theorem natAbs_ofBody_cleared (n : Nat) (b : Bytes) :
    (ofBody (b.cleared (n + 1))).natAbs =
      (ofBody b).natAbs / 256 ^ (b.length - (n + 1)) * 256 ^ (b.length - (n + 1)) := by
  cases b with
  | nil => simp [Bytes.cleared, ofBody]
  | cons x rest =>
    rw [Bytes.cleared_cons, natAbs_ofBody, natAbs_ofBody, ← Bytes.cleared_cons]
    exact Bytes.toNatBE_cleared (n + 1) _

theorem ofBody_cleared_eq_zero_iff (n : Nat) (hb : Minimal b) :
    ofBody (b.cleared (n + 2)) = 0 ↔ ofBody b = 0 := by
  rw [ofBody_eq_zero_iff (minimal_cleared n hb), ofBody_eq_zero_iff hb, ← List.length_eq_zero_iff,
    Bytes.length_cleared, List.length_eq_zero_iff]

theorem sign_ofBody_cleared (n : Nat) (hb : Minimal b) :
    (ofBody (b.cleared (n + 2))).sign = (ofBody b).sign := by
  have hzero := ofBody_cleared_eq_zero_iff n hb
  by_cases h0 : ofBody b = 0
  · rw [hzero.mpr h0, h0]
  · cases b with
    | nil => exact absurd rfl h0
    | cons x rest =>
      have hc0 := mt hzero.mp h0
      rw [Bytes.cleared_cons] at hc0 ⊢
      have hneg := (sign_ofBody hc0).symm.trans (sign_ofBody h0)
      rcases Int.lt_trichotomy (ofBody (x :: rest)) 0 with hlt | heq | hgt
      · rw [Int.sign_eq_neg_one_of_neg hlt, Int.sign_eq_neg_one_of_neg (hneg.mpr hlt)]
      · exact absurd heq h0
      · have hge := Int.not_lt.mp (mt hneg.mp (Int.not_lt_of_ge (Int.le_of_lt hgt)))
        have hpos := Int.lt_iff_le_and_ne.mpr ⟨hge, Ne.symm hc0⟩
        rw [Int.sign_eq_one_of_pos hgt, Int.sign_eq_one_of_pos hpos]

end Mpi

namespace Compact

variable {a : Int} {b : Bytes}

def head (b : Bytes) : Bytes := (b ++ [0, 0, 0]).take 3

theorem length_head (b : Bytes) : (head b).length = 3 := List.length_take_of_le (by simp)

theorem head_of_length_le (hb : 3 ≤ b.length) : head b = b.take 3 :=
  List.take_append_of_le_length hb

theorem head_cleared (b : Bytes) : head (b.cleared 3) = head b := by
  rcases Nat.le_total b.length 3 with hb | hb
  · rw [Bytes.cleared_of_length_le hb]
  · rw [head_of_length_le hb, head_of_length_le (by rwa [Bytes.length_cleared]), Bytes.cleared,
      List.take_left' (List.length_take_of_le hb)]

theorem take_head (b : Bytes) :
    (head b ++ List.replicate (b.length - 3) 0).take b.length = b.cleared 3 := by
  rcases Nat.le_total b.length 3 with hb | hb
  · rw [Bytes.cleared_of_length_le hb, List.take_append_of_le_length (by rwa [length_head]), head,
      List.take_take, Nat.min_eq_left hb, List.take_left]
  · rw [head_of_length_le hb, ← Bytes.cleared]
    exact List.take_of_length_le (Nat.le_of_eq (Bytes.length_cleared 3 b))

theorem toNat_ofInt (ha : (Mpi.body a).length ≤ 255) : (ofInt a).toNat =
    0x1000000 * (Mpi.body a).length + Bytes.toNatBE (head (Mpi.body a)) := by
  have hlow := Bytes.toNatBE_lt (head (Mpi.body a))
  rw [length_head] at hlow
  exact UInt32.toNat_ofNat_of_lt' (by rw [UInt32.size, ← head]; omega)

theorem toInt_ofInt (ha : (Mpi.body a).length ≤ 255) :
    toInt (ofInt a) = Mpi.ofBody ((Mpi.body a).cleared 3) := by
  have hvalue := toNat_ofInt ha
  have hlow := Bytes.toNatBE_lt (head (Mpi.body a))
  have hhead := Bytes.ofNatBE_toNatBE (head (Mpi.body a))
  rw [length_head] at hlow hhead
  have hsize : (ofInt a).toNat / 0x1000000 = (Mpi.body a).length := by omega
  have hrest : (ofInt a).toNat % 256 ^ 3 = Bytes.toNatBE (head (Mpi.body a)) := by omega
  have hbytes : Bytes.ofNatBE 3 (ofInt a).toNat = head (Mpi.body a) := by
    rw [← Bytes.ofNatBE_mod, hrest, hhead]
  simp only [toInt, hsize, hbytes, take_head]

theorem body_toInt_ofInt (ha : (Mpi.body a).length ≤ 255) :
    Mpi.body (toInt (ofInt a)) = (Mpi.body a).cleared 3 := by
  rw [toInt_ofInt ha]
  exact Mpi.body_ofBody_of_minimal (Mpi.minimal_cleared 1 (Mpi.minimal_body a))

theorem ofInt_toInt_ofInt (ha : (Mpi.body a).length ≤ 255) :
    ofInt (toInt (ofInt a)) = ofInt a := by
  have hlen : (Mpi.body (toInt (ofInt a))).length = (Mpi.body a).length := by
    rw [body_toInt_ofInt ha, Bytes.length_cleared]
  apply UInt32.toNat_inj.mp
  rw [toNat_ofInt (by rwa [hlen]), toNat_ofInt ha, hlen, body_toInt_ofInt ha, head_cleared]

theorem sign_toInt_ofInt (ha : (Mpi.body a).length ≤ 255) : (toInt (ofInt a)).sign = a.sign := by
  rw [toInt_ofInt ha, Mpi.sign_ofBody_cleared 1 (Mpi.minimal_body a), Mpi.ofBody_body]

/-- The lowest bits of the magnitude, those outside of the first three bytes, are cleared. -/
theorem natAbs_toInt_ofInt (ha : (Mpi.body a).length ≤ 255) :
    (toInt (ofInt a)).natAbs =
      a.natAbs >>> (8 * ((Mpi.body a).length - 3)) <<< (8 * ((Mpi.body a).length - 3)) := by
  rw [toInt_ofInt ha, Mpi.natAbs_ofBody_cleared, Mpi.ofBody_body, Nat.shiftRight_eq_div_pow,
    Nat.shiftLeft_eq, Nat.pow_mul]

theorem toInt_ofInt_exact (ha : (Mpi.body a).length ≤ 255) :
    let lost := 8 * ((Mpi.body a).length - 3)
    let r := toInt (ofInt a)
    r.sign = a.sign ∧ r.natAbs = a.natAbs >>> lost <<< lost ∧
      ((Mpi.body a).length ≤ 3 → r = a) ∧
      r.natAbs ≤ a.natAbs ∧ (r = 0 ↔ a = 0) ∧ (r = a ↔ a.natAbs % 2 ^ lost = 0) ∧
      ofInt r = ofInt a := by
  intro lost r
  have hsign : r.sign = a.sign := sign_toInt_ofInt ha
  have habs : r.natAbs = a.natAbs >>> lost <<< lost := natAbs_toInt_ofInt ha
  have hsplit : r.natAbs + a.natAbs % 2 ^ lost = a.natAbs := by
    rw [habs, Nat.shiftRight_eq_div_pow, Nat.shiftLeft_eq, Nat.div_add_mod']
  have heq : r = a ↔ a.natAbs % 2 ^ lost = 0 := by
    refine ⟨fun h ↦ ?_, fun h ↦ ?_⟩
    · rw [h] at hsplit
      omega
    · rw [h, Nat.add_zero] at hsplit
      rw [← Int.sign_mul_natAbs r, hsign, hsplit, Int.sign_mul_natAbs]
  refine ⟨hsign, habs, fun hlen ↦ heq.mpr ?_, by omega, ?_, heq, ofInt_toInt_ofInt ha⟩
  · have hlost : lost = 0 := by omega
    rw [hlost, Nat.pow_zero, Nat.mod_one]
  · rw [← Int.sign_eq_zero_iff_zero, hsign, Int.sign_eq_zero_iff_zero]

/-- The magnitude takes up the top bit, so one of the three bytes is there for the sign alone. -/
theorem toInt_ofInt_exact_padded :
    (Mpi.body (-0x80345678)).length ≤ 255 ∧ 8 * ((Mpi.body (-0x80345678)).length - 3) = 16 ∧
      toInt (ofInt (-0x80345678)) = -0x80340000 ∧
      toInt (ofInt (-0x80345678)) ≠ -0x80345678 ∧
      ofInt (toInt (ofInt (-0x80345678))) = ofInt (-0x80345678) := by
  have hbody : (Mpi.body (-0x80345678)).length = 5 := by decide +kernel
  have ha : (Mpi.body (-0x80345678)).length ≤ 255 := by omega
  have hlost : 8 * ((Mpi.body (-0x80345678)).length - 3) = 16 := by omega
  obtain ⟨hsign, habs, -, -, -, heq, htwice⟩ := toInt_ofInt_exact ha
  rw [hlost] at habs heq
  refine ⟨ha, hlost, ?_, mt heq.mp (by decide), htwice⟩
  rw [← Int.sign_mul_natAbs (toInt (ofInt (-0x80345678))), hsign, habs]
  decide

end Compact

end ChainAnchor
