import ChainAnchor.Number.Mpi
import ChainAnchor.Proofs.Bytes

namespace ChainAnchor.Mpi

variable {a : Int} {x y : UInt8} {b rest : Bytes}

def Minimal : Bytes → Prop
  | [] => True
  | [x] => x &&& 0x7f ≠ 0
  | x :: y :: _ => x &&& 0x7f ≠ 0 ∨ ((x = 0 ∨ x = 0x80) ∧ 0x80 ≤ y)

instance : DecidablePred Minimal
  | [] => inferInstanceAs (Decidable True)
  | [x] => inferInstanceAs (Decidable (x &&& 0x7f ≠ 0))
  | x :: y :: _ => inferInstanceAs
    (Decidable (x &&& 0x7f ≠ 0 ∨ ((x = 0 ∨ x = 0x80) ∧ 0x80 ≤ y)))

theorem toNat_low (x : UInt8) : (x &&& 0x7f).toNat = x.toNat % 128 := by
  rw [UInt8.toNat_and]
  exact Nat.and_two_pow_sub_one_eq_mod _ 7

theorem toNat_signed (hx : x < 0x80) : (0x80 ||| x).toNat = 128 + x.toNat := by
  have hlt := UInt8.lt_iff_toNat_lt.mp hx
  rw [UInt8.toNat_or]
  exact (Nat.two_pow_add_eq_or_of_lt (i := 7) hlt 1).symm

theorem low_lt (x : UInt8) : x &&& 0x7f < 0x80 := by
  rw [UInt8.lt_iff_toNat_lt, toNat_low]
  exact Nat.mod_lt _ (by decide)

theorem low_of_lt (hx : x < 0x80) : x &&& 0x7f = x := by
  apply UInt8.toNat_inj.mp
  rw [toNat_low]
  exact Nat.mod_eq_of_lt (UInt8.lt_iff_toNat_lt.mp hx)

def sign (a : Int) : UInt8 := if a < 0 then 0x80 else 0

theorem sign_le_iff : 0x80 ≤ sign a ↔ a < 0 := by
  rw [sign]
  split
  next h => exact iff_of_true (by decide) h
  next h => exact iff_of_false (by decide) h

theorem low_sign (a : Int) : sign a &&& 0x7f = 0 := by
  rw [sign]
  split <;> decide

theorem signed_le_iff (hy : y < 0x80) : 0x80 ≤ sign a ||| y ↔ a < 0 := by
  rw [sign]
  split
  next h =>
    refine iff_of_true ?_ h
    rw [UInt8.le_iff_toNat_le, toNat_signed hy]
    exact Nat.le_add_right _ _
  next h =>
    refine iff_of_false ?_ h
    rw [UInt8.zero_or, UInt8.not_le]
    exact hy

theorem low_signed (hy : y < 0x80) : (sign a ||| y) &&& 0x7f = y := by
  rw [sign]
  split
  · apply UInt8.toNat_inj.mp
    rw [toNat_low, toNat_signed hy]
    have hlt := UInt8.lt_iff_toNat_lt.mp hy
    have h128 : (0x80 : UInt8).toNat = 128 := rfl
    omega
  · rw [UInt8.zero_or, low_of_lt hy]

theorem signed_low (hx : 0x80 ≤ x ↔ a < 0) : sign a ||| (x &&& 0x7f) = x := by
  have hlt : x.toNat < 256 := x.toNat_lt
  have h128 : (0x80 : UInt8).toNat = 128 := rfl
  rw [sign]
  split
  next h =>
    have hge := UInt8.le_iff_toNat_le.mp (hx.mpr h)
    apply UInt8.toNat_inj.mp
    rw [toNat_signed (low_lt x), toNat_low]
    omega
  next h => rw [UInt8.zero_or, low_of_lt (UInt8.not_le.mp (mt hx.mp h))]

theorem eq_of_low_eq_zero (hx : x &&& 0x7f = 0) : x = 0 ∨ x = 0x80 := by
  have hmod := toNat_low x
  have hlt : x.toNat < 256 := x.toNat_lt
  rw [hx] at hmod
  have h0 : (0 : UInt8).toNat = 0 := rfl
  have hcases : x.toNat = 0 ∨ x.toNat = 128 := by omega
  exact hcases.imp (UInt8.toNat_inj.mp ·) (UInt8.toNat_inj.mp ·)

theorem body_eq (a : Int) : body a =
    match Bytes.minimalBE a.natAbs with
    | [] => []
    | x :: rest => if 0x80 ≤ x then sign a :: x :: rest else (sign a ||| x) :: rest := rfl

theorem ofBody_cons (x : UInt8) (rest : Bytes) : ofBody (x :: rest) =
    if 0x80 ≤ x then -(Bytes.toNatBE ((x &&& 0x7f) :: rest) : Int)
    else Bytes.toNatBE ((x &&& 0x7f) :: rest) := rfl

theorem ofBody_eq_of_sign (hsign : 0x80 ≤ x ↔ a < 0)
    (hlow : Bytes.toNatBE ((x &&& 0x7f) :: rest) = a.natAbs) : ofBody (x :: rest) = a := by
  rw [ofBody_cons, hlow]
  split
  next hx =>
    have hneg := hsign.mp hx
    omega
  next hx =>
    have hneg := mt hsign.mpr hx
    omega

theorem natAbs_ofBody (x : UInt8) (rest : Bytes) :
    (ofBody (x :: rest)).natAbs = Bytes.toNatBE ((x &&& 0x7f) :: rest) := by
  rw [ofBody_cons]
  split <;> omega

theorem sign_ofBody (hn : ofBody (x :: rest) ≠ 0) : 0x80 ≤ x ↔ ofBody (x :: rest) < 0 := by
  rw [ofBody_cons] at hn ⊢
  split at hn
  next hx => exact iff_of_true hx (by rw [if_pos hx]; omega)
  next hx => exact iff_of_false hx (by rw [if_neg hx]; omega)

theorem ofBody_body (a : Int) : ofBody (body a) = a := by
  have hn := Bytes.toNatBE_minimalBE a.natAbs
  rw [body_eq]
  split
  next he =>
    rw [he] at hn
    exact (Int.natAbs_eq_zero.mp hn.symm).symm
  next y rest he =>
    rw [he] at hn
    split
    next => exact ofBody_eq_of_sign sign_le_iff (by rwa [low_sign])
    next hy =>
      have hy := UInt8.not_le.mp hy
      exact ofBody_eq_of_sign (signed_le_iff hy) (by rwa [low_signed hy])

theorem minimalBE_natAbs_ofBody (x : UInt8) (rest : Bytes) :
    Bytes.minimalBE (ofBody (x :: rest)).natAbs = ((x &&& 0x7f) :: rest).dropWhile (· == 0) := by
  rw [natAbs_ofBody, Bytes.minimalBE_toNatBE]

theorem body_zero : body 0 = [] := by
  rw [body_eq, Int.natAbs_zero, Bytes.minimalBE, Bytes.consNat_zero]

theorem ofBody_ne_zero {z : UInt8} {l : Bytes}
    (hd : ((x &&& 0x7f) :: rest).dropWhile (· == 0) = z :: l) : ofBody (x :: rest) ≠ 0 := by
  intro h0
  rw [← minimalBE_natAbs_ofBody, h0, Int.natAbs_zero, Bytes.minimalBE, Bytes.consNat_zero] at hd
  cases hd

theorem body_ofBody_of_minimal (hb : Minimal b) : body (ofBody b) = b := by
  cases b with
  | nil => exact body_zero
  | cons x rest =>
    by_cases hlow : x &&& 0x7f = 0
    · -- the first byte is there for the sign alone
      obtain ⟨y, tail, rfl, hx, hy⟩ :
          ∃ y tail, rest = y :: tail ∧ (x = 0 ∨ x = 0x80) ∧ 0x80 ≤ y := by
        cases rest with
        | nil => exact absurd hlow hb
        | cons y tail => exact ⟨y, tail, rfl, hb.resolve_left (absurd hlow)⟩
      have hy0 : y ≠ 0 := fun h ↦ by simp [h] at hy
      have hd : ((x &&& 0x7f) :: y :: tail).dropWhile (· == 0) = y :: tail := by
        simp [hlow, hy0]
      have hsign := sign_ofBody (ofBody_ne_zero hd)
      have hx := signed_low hsign
      rw [hlow, UInt8.or_zero] at hx
      rw [body_eq, minimalBE_natAbs_ofBody, hd]
      simp only [if_pos hy, hx]
    · have hd : ((x &&& 0x7f) :: rest).dropWhile (· == 0) = (x &&& 0x7f) :: rest := by
        simp [hlow]
      have hsign := sign_ofBody (ofBody_ne_zero hd)
      rw [body_eq, minimalBE_natAbs_ofBody, hd]
      simp only [if_neg (UInt8.not_le.mpr (low_lt x)), signed_low hsign]

theorem length_body_le (a : Int) :
    (body a).length ≤ (Bytes.minimalBE a.natAbs).length + 1 := by
  rw [body_eq]
  cases Bytes.minimalBE a.natAbs with
  | nil => exact Nat.zero_le _
  | cons x rest =>
    dsimp only
    split
    · exact Nat.le_refl _
    · exact Nat.le_succ _

/-- A body with a byte to spare is not the one that its integer is written as. -/
theorem length_body_ofBody_lt (hb : ¬Minimal b) : (body (ofBody b)).length < b.length := by
  match b with
  | [] => exact absurd trivial hb
  | [x] =>
    have hlow : x &&& 0x7f = 0 := Decidable.not_not.mp hb
    have hd := minimalBE_natAbs_ofBody x []
    rw [hlow] at hd
    rw [body_eq, hd]
    exact Nat.one_pos
  | x :: y :: tail =>
    obtain ⟨hlow, hy⟩ := not_or.mp hb
    have hlow := Decidable.not_not.mp hlow
    have hy := UInt8.not_le.mp (not_and.mp hy (eq_of_low_eq_zero hlow))
    have hd := minimalBE_natAbs_ofBody x (y :: tail)
    rw [hlow, List.dropWhile_cons_of_pos rfl] at hd
    by_cases hy0 : y = 0
    · -- two bytes to spare, of which the sign takes one at most
      subst hy0
      rw [List.dropWhile_cons_of_pos rfl] at hd
      have hle := length_body_le (ofBody (x :: 0 :: tail))
      have htail := (List.dropWhile_sublist (l := tail) (· == 0)).length_le
      rw [hd] at hle
      simp only [List.length_cons]
      omega
    · rw [List.dropWhile_cons_of_neg (by simp [hy0])] at hd
      rw [body_eq, hd]
      simp only [if_neg (UInt8.not_le.mpr hy), List.length_cons, Nat.lt_succ_self]

theorem minimal_body (a : Int) : Minimal (body a) := by
  by_cases hb : Minimal (body a)
  · exact hb
  · have hlt := length_body_ofBody_lt hb
    rw [ofBody_body] at hlt
    exact absurd hlt (Nat.lt_irrefl _)

theorem body_ofBody_iff : body (ofBody b) = b ↔ Minimal b :=
  ⟨fun h ↦ h ▸ minimal_body _, body_ofBody_of_minimal⟩

theorem ofBody_negative_zero (n : Nat) : ofBody (0x80 :: List.replicate n 0) = 0 := by
  have hzero : Bytes.toNatBE ((0x80 &&& 0x7f) :: List.replicate n 0) = 0 :=
    Bytes.toNatBE_replicate_zero (n + 1)
  rw [ofBody_cons, hzero]
  rfl

theorem length_encode (a : Int) : (encode a).length = 4 + (body a).length := by
  rw [encode, List.length_append, Bytes.length_ofNatBE]

theorem decode_prefixed (hb : b.length < 2 ^ 32) :
    decode (Bytes.ofNatBE 4 b.length ++ b) = .ok (ofBody b) := by
  have hlen := Bytes.length_ofNatBE 4 b.length
  have hvalue : Bytes.toNatBE (Bytes.ofNatBE 4 b.length) = b.length :=
    Bytes.toNatBE_ofNatBE_of_lt hb
  rw [decode, List.take_left' hlen, List.drop_left' hlen, hvalue, List.length_append, hlen,
    if_neg (by omega), if_neg (by omega)]

theorem decode_eq_ok_iff : decode b = .ok a ↔
    4 ≤ b.length ∧ Bytes.toNatBE (b.take 4) = b.length - 4 ∧ ofBody (b.drop 4) = a := by
  rw [decode]
  split
  next h => exact iff_of_false (fun h' ↦ by cases h') (fun ⟨h', _⟩ ↦ by omega)
  next h =>
    split
    next hne => exact iff_of_false (fun h' ↦ by cases h') (fun ⟨_, h', _⟩ ↦ hne h'.symm)
    next heq =>
      rw [Except.ok.injEq]
      exact ⟨fun h' ↦ ⟨by omega, by omega, h'⟩, fun h' ↦ h'.2.2⟩

theorem encode_of_decode (hd : decode b = .ok a) :
    (encode a = b ↔ Minimal (b.drop 4)) ∧
      (¬Minimal (b.drop 4) → (encode a).length < b.length) := by
  obtain ⟨hlen, hvalue, rfl⟩ := decode_eq_ok_iff.mp hd
  have htake : (b.take 4).length = 4 := List.length_take_of_le hlen
  have hdrop : (b.drop 4).length = b.length - 4 := List.length_drop
  refine ⟨⟨fun he ↦ ?_, fun hm ↦ ?_⟩, fun hm ↦ ?_⟩
  · rw [← he, encode, List.drop_left' (Bytes.length_ofNatBE _ _)]
    exact minimal_body _
  · have hhead := Bytes.ofNatBE_toNatBE (b.take 4)
    rw [htake, hvalue] at hhead
    rw [encode, body_ofBody_of_minimal hm, hdrop, hhead, List.take_append_drop]
  · have hlt := length_body_ofBody_lt hm
    rw [length_encode]
    omega

/-- Integers come back from their bytes.  Bytes that have the length in front of them are read,
whether they are written like that or have bytes to spare; those of the negative zero are zero. -/
theorem decode_exact :
    (∀ a, (body a).length < 2 ^ 32 → decode (encode a) = .ok a) ∧
    (∀ a, ofScriptBytes (scriptBytes a) = a) ∧
    (∀ b, (∃ a, decode b = .ok a) ↔ 4 ≤ b.length ∧ Bytes.toNatBE (b.take 4) = b.length - 4) ∧
    (∀ b a, decode b = .ok a → (encode a = b ↔ Minimal (b.drop 4)) ∧
      (¬Minimal (b.drop 4) → (encode a).length < b.length)) ∧
    (∀ b, scriptBytes (ofScriptBytes b) = b ↔ Minimal b.reverse) ∧
    (∀ n, n + 1 < 2 ^ 32 →
      decode (Bytes.ofNatBE 4 (n + 1) ++ 0x80 :: List.replicate n 0) = .ok 0) ∧
    (∀ n, ofScriptBytes (List.replicate n 0 ++ [0x80]) = 0) := by
  refine ⟨fun a ha ↦ ?_, fun a ↦ ?_, fun b ↦ ?_, fun b a ↦ encode_of_decode, fun b ↦ ?_,
    fun n hn ↦ ?_, fun n ↦ ?_⟩
  · rw [encode, decode_prefixed ha, ofBody_body]
  · rw [ofScriptBytes, scriptBytes, List.reverse_reverse, ofBody_body]
  · simp only [decode_eq_ok_iff, exists_and_left, exists_eq', and_true]
  · rw [← body_ofBody_iff, scriptBytes, ofScriptBytes, List.reverse_eq_iff]
  · have hlen : (0x80 :: List.replicate n (0 : UInt8)).length = n + 1 := by simp
    have hd := decode_prefixed (b := 0x80 :: List.replicate n 0) (by omega)
    rwa [hlen, ofBody_negative_zero] at hd
  · rw [ofScriptBytes, List.reverse_append, List.reverse_replicate]
    exact ofBody_negative_zero n

/-- The bytes have a zero to spare after the sign. -/
theorem decode_exact_spare :
    let b : Bytes := [0, 0, 0, 3, 0x80, 0, 0x80]
    ((body (-128)).length < 2 ^ 32 ∧ decode (encode (-128)) = .ok (-128)) ∧
      (decode b = .ok (-128) ∧ ¬Minimal (b.drop 4) ∧ encode (-128) ≠ b ∧
        (encode (-128)).length < b.length) ∧
      (3 + 1 < 2 ^ 32 ∧
        decode (Bytes.ofNatBE 4 (3 + 1) ++ 0x80 :: List.replicate 3 0) = .ok 0) := by
  intro b
  obtain ⟨hback, -, -, hshort, -, hzero, -⟩ := decode_exact
  have hbody : (body (-128)).length < 2 ^ 32 := by decide +kernel
  have hd : decode b = .ok (-128) := rfl
  have hm : ¬Minimal (b.drop 4) := by decide
  obtain ⟨hiff, hlt⟩ := hshort b (-128) hd
  exact ⟨⟨hbody, hback (-128) hbody⟩, ⟨hd, hm, mt hiff.mp hm, hlt hm⟩, by decide,
    hzero 3 (by decide)⟩

end ChainAnchor.Mpi
