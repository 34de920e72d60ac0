import ChainAnchor.Proofs.Number.Compact

namespace ChainAnchor

namespace Mpi

variable {a b : Int} {x : UInt8} {rest : Bytes}

/-- Beside the magnitude there is room for one bit more. -/
theorem natAbs_ofBody_lt (x : UInt8) (rest : Bytes) :
    2 * (ofBody (x :: rest)).natAbs < 256 ^ (rest.length + 1) := by
  have hrest := Bytes.toNatBE_lt rest
  have hx : (x &&& 0x7f).toNat ≤ 127 := Nat.le_of_lt_succ (UInt8.lt_iff_toNat_lt.mp (low_lt x))
  have hmul := Nat.mul_le_mul_right (256 ^ rest.length) hx
  rw [natAbs_ofBody, Bytes.toNatBE_cons, Nat.pow_succ]
  omega

/-- With one byte less there is no room for that bit. -/
theorem pow_le_of_minimal (hb : Minimal (x :: rest)) :
    256 ^ rest.length ≤ 2 * (ofBody (x :: rest)).natAbs := by
  rw [natAbs_ofBody, Bytes.toNatBE_cons]
  have hfirst (hlow : x &&& 0x7f ≠ 0) :
      256 ^ rest.length ≤ (x &&& 0x7f).toNat * 256 ^ rest.length := by
    refine Nat.le_mul_of_pos_left _ (Nat.pos_of_ne_zero fun h ↦ hlow ?_)
    exact UInt8.toNat_inj.mp h
  cases rest with
  | nil =>
    have h := hfirst hb
    omega
  | cons y tail =>
    rcases hb with hlow | ⟨-, hy⟩
    · have h := hfirst hlow
      omega
    · have hmul := Nat.mul_le_mul_right (256 ^ tail.length) (UInt8.le_iff_toNat_le.mp hy)
      have h128 : (0x80 : UInt8).toNat = 128 := rfl
      rw [h128] at hmul
      rw [Bytes.toNatBE_cons, List.length_cons, Nat.pow_succ]
      omega

theorem length_body_le_iff {n : Nat} : (body a).length ≤ n ↔ 2 * a.natAbs < 256 ^ n := by
  have ha := ofBody_body a
  have hmin := minimal_body a
  cases hbody : body a with
  | nil =>
    rw [hbody] at ha
    rw [← ha]
    exact iff_of_true (Nat.zero_le n) (Nat.pow_pos (by decide))
  | cons x rest =>
    rw [hbody] at ha hmin
    have hlow := pow_le_of_minimal hmin
    have hhigh := natAbs_ofBody_lt x rest
    rw [ha] at hlow hhigh
    refine ⟨fun h ↦ ?_, fun h ↦ ?_⟩
    · exact Nat.lt_of_lt_of_le hhigh (Nat.pow_le_pow_right (by decide) h)
    · have hlt := Nat.lt_of_le_of_lt hlow h
      exact (Nat.pow_lt_pow_iff_right (by decide : 1 < 256)).mp hlt

theorem length_body_mono (h : a.natAbs ≤ b.natAbs) : (body a).length ≤ (body b).length := by
  have hb := length_body_le_iff.mp (Nat.le_refl (body b).length)
  exact length_body_le_iff.mpr (by omega)

/-- Read as a number, a body is the magnitude and the sign bit above it. -/
theorem toNatBE_body (a : Int) : Bytes.toNatBE (body a) =
    a.natAbs + if a < 0 then 128 * 256 ^ ((body a).length - 1) else 0 := by
  have ha := ofBody_body a
  cases hbody : body a with
  | nil =>
    rw [hbody] at ha
    rw [← ha]
    rfl
  | cons x rest =>
    have h0 : a ≠ 0 := by
      rintro rfl
      rw [body_zero] at hbody
      cases hbody
    rw [hbody] at ha
    have hsign := sign_ofBody (by rwa [ha] : ofBody (x :: rest) ≠ 0)
    have habs := natAbs_ofBody x rest
    have hx : x.toNat < 256 := x.toNat_lt
    have h128 : (0x80 : UInt8).toNat = 128 := rfl
    rw [ha, UInt8.le_iff_toNat_le, h128] at hsign
    rw [ha, Bytes.toNatBE_cons, toNat_low] at habs
    rw [Bytes.toNatBE_cons, List.length_cons, Nat.add_sub_cancel]
    split
    next hneg =>
      have hge := hsign.mpr hneg
      have hsplit : x.toNat = x.toNat % 128 + 128 := by omega
      rw [hsplit, Nat.add_mul]
      omega
    next hneg =>
      have hlt := Nat.not_le.mp (mt hsign.mp hneg)
      rw [Nat.mod_eq_of_lt hlt] at habs
      omega

end Mpi

namespace Compact

variable {a b : Int}

theorem toNatBE_head (b : Bytes) :
    Bytes.toNatBE (head b) = Bytes.toNatBE b * 256 ^ 3 / 256 ^ b.length := by
  have hzero : Bytes.toNatBE [0, 0, 0] = 0 := Bytes.toNatBE_replicate_zero 3
  have hlen : (b ++ [0, 0, 0]).length - 3 = b.length := by simp
  have hthree : ([0, 0, 0] : Bytes).length = 3 := rfl
  rw [head, Bytes.toNatBE_take, hlen, Bytes.toNatBE_append, hzero, hthree, Nat.add_zero]

/-- The size decides, and where it is the same the first bytes do. -/
theorem ofInt_le_of_natAbs_le (hb : (Mpi.body b).length ≤ 255) (hsign : a < 0 ↔ b < 0)
    (h : a.natAbs ≤ b.natAbs) : ofInt a ≤ ofInt b := by
  have hlen := Mpi.length_body_mono h
  have hhead := Bytes.toNatBE_lt (head (Mpi.body a))
  rw [length_head] at hhead
  rw [UInt32.le_iff_toNat_le, toNat_ofInt (Nat.le_trans hlen hb), toNat_ofInt hb]
  rcases Nat.lt_or_eq_of_le hlen with hlt | heq
  · omega
  · have hbodies : Bytes.toNatBE (Mpi.body a) ≤ Bytes.toNatBE (Mpi.body b) := by
      rw [Mpi.toNatBE_body, Mpi.toNatBE_body, heq, if_congr hsign rfl rfl]
      omega
    have hheads : Bytes.toNatBE (head (Mpi.body a)) ≤ Bytes.toNatBE (head (Mpi.body b)) := by
      rw [toNatBE_head, toNatBE_head, heq]
      exact Nat.div_le_div_right (Nat.mul_le_mul_right _ hbodies)
    omega

/-- Compact forms are ordered as the integers are, downwards below zero, and differ just where the
integers that they keep differ. -/
theorem ofInt_le_ofInt (ha : (Mpi.body a).length ≤ 255) (hb : (Mpi.body b).length ≤ 255) :
    (0 ≤ a → a ≤ b → ofInt a ≤ ofInt b) ∧
      (ofInt a = ofInt b ↔ toInt (ofInt a) = toInt (ofInt b)) ∧
      (a ≤ b → b ≤ -1 → ofInt b ≤ ofInt a) := by
  refine ⟨fun h0 hab ↦ ?_, ⟨fun h ↦ congrArg toInt h, fun h ↦ ?_⟩, fun hab h1 ↦ ?_⟩
  · exact ofInt_le_of_natAbs_le hb (by omega) (by omega)
  · rw [← ofInt_toInt_ofInt ha, h, ofInt_toInt_ofInt hb]
  · exact ofInt_le_of_natAbs_le ha (by omega) (by omega)

/-- Between the first two integers the body grows by a byte for the sign; the next two differ in
what is lost alone; the last two are negative. -/
theorem ofInt_le_ofInt_across :
    ofInt 0x7fffff ≤ ofInt 0x800000 ∧ (Mpi.body 0x7fffff).length < (Mpi.body 0x800000).length ∧
      (ofInt 0x12345678 = ofInt 0x123456ff ∧
        toInt (ofInt 0x12345678) = toInt (ofInt 0x123456ff)) ∧
      ofInt (-0x7fffff) ≤ ofInt (-0x800000) := by
  have hlen : (Mpi.body 0x7fffff).length = 3 ∧ (Mpi.body 0x800000).length = 4 ∧
      (Mpi.body 0x12345678).length = 4 ∧ (Mpi.body 0x123456ff).length = 4 ∧
      (Mpi.body (-0x7fffff)).length = 3 ∧ (Mpi.body (-0x800000)).length = 4 := by
    decide +kernel
  obtain ⟨h₁, h₂, h₃, h₄, h₅, h₆⟩ := hlen
  obtain ⟨hup, -, -⟩ := ofInt_le_ofInt (a := 0x7fffff) (b := 0x800000) (by omega) (by omega)
  obtain ⟨-, hsame, -⟩ := ofInt_le_ofInt (a := 0x12345678) (b := 0x123456ff) (by omega) (by omega)
  obtain ⟨-, -, hdown⟩ := ofInt_le_ofInt (a := -0x800000) (b := -0x7fffff) (by omega) (by omega)
  have heq : ofInt 0x12345678 = ofInt 0x123456ff := by decide +kernel
  exact ⟨hup (by decide) (by decide), by omega, ⟨heq, hsame.mp heq⟩, hdown (by decide) (by decide)⟩

end Compact

end ChainAnchor
