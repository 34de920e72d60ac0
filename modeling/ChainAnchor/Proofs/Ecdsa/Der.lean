import ChainAnchor.Ecdsa.Der
import ChainAnchor.Proofs.Bytes

namespace ChainAnchor.Der

open Curve

variable {b rest body : Bytes} {n r s : Nat}

inductive IsPassed : Bytes → Prop
  | short {x : UInt8} (hx : x < 0x80) : IsPassed [x]
  | long {x : UInt8} {digits : Bytes} (hx : ¬x < 0x80) (hd : digits.length = x.toNat - 0x80) :
      IsPassed (x :: digits)

/-- Bytes that announce a length, which has to fit into seven of them. -/
inductive IsLength : Bytes → Nat → Prop
  | short {x : UInt8} (hx : x < 0x80) : IsLength [x] x.toNat
  | long {x : UInt8} {digits : Bytes} (hx : ¬x < 0x80) (hd : digits.length = x.toNat - 0x80)
      (hn : Bytes.toNatBE digits < 256 ^ 7) : IsLength (x :: digits) (Bytes.toNatBE digits)

inductive IsInteger : Bytes → Nat → Prop
  | mk {l body : Bytes} (hl : IsLength l body.length) :
      IsInteger (0x02 :: (l ++ body)) (Bytes.toNatBE body)

inductive Spells : Bytes → Nat → Nat → Prop
  | mk {l br bs : Bytes} {r s : Nat} (hl : IsPassed l) (hr : IsInteger br r) (hs : IsInteger bs s)
      (rest : Bytes) : Spells (0x30 :: (l ++ (br ++ (bs ++ rest)))) r s

theorem skipLength_eq_some_iff :
    skipLength b = some rest ↔ ∃ l, IsPassed l ∧ b = l ++ rest := by
  constructor
  · intro h
    cases b with
    | nil => cases h
    | cons x b =>
      rw [skipLength] at h
      split at h
      next hx =>
        cases h
        exact ⟨[x], .short hx, rfl⟩
      next hx =>
        split at h
        · cases h
        next hle =>
          obtain rfl := Option.some.inj h
          have hl := List.length_take_of_le (Nat.not_lt.mp hle)
          refine ⟨x :: b.take (x.toNat - 0x80), .long hx hl, ?_⟩
          rw [List.cons_append, List.take_append_drop]
  · rintro ⟨l, hl, rfl⟩
    cases hl with
    | short hx => simp [skipLength, hx]
    | long hx hd => simp [skipLength, hx, ← hd]

theorem takeLength_eq_some_iff :
    takeLength b = some (n, rest) ↔ ∃ l, IsLength l n ∧ b = l ++ rest := by
  constructor
  · intro h
    cases b with
    | nil => cases h
    | cons x b =>
      rw [takeLength] at h
      split at h
      next hx =>
        cases h
        exact ⟨[x], .short hx, rfl⟩
      next hx =>
        dsimp only at h
        split at h
        · cases h
        split at h
        · cases h
        next hle hdigits =>
          rw [Option.some.injEq, Prod.mk.injEq] at h
          obtain ⟨rfl, rfl⟩ := h
          have hfits : Bytes.toNatBE (b.take (x.toNat - 0x80)) < 256 ^ 7 := by
            rw [← Bytes.length_minimalBE_le_iff, Bytes.minimalBE_toNatBE]
            omega
          have hl := List.length_take_of_le (Nat.not_lt.mp hle)
          rw [Bytes.toNatBE_dropWhile]
          refine ⟨x :: b.take (x.toNat - 0x80), .long hx hl hfits, ?_⟩
          rw [List.cons_append, List.take_append_drop]
  · rintro ⟨l, hl, rfl⟩
    cases hl with
    | short hx => simp [takeLength, hx]
    | @long x digits hx hd hn =>
      rw [← Bytes.length_minimalBE_le_iff, Bytes.minimalBE_toNatBE] at hn
      have hn : ¬8 ≤ (digits.dropWhile (· == 0)).length := by omega
      simp [takeLength, hx, ← hd, hn, Bytes.toNatBE_dropWhile]

theorem takeInteger_eq_some_iff :
    takeInteger b = some (n, rest) ↔ ∃ c, IsInteger c n ∧ b = c ++ rest := by
  constructor
  · intro h
    cases b with
    | nil => cases h
    | cons tag b =>
      rw [takeInteger] at h
      split at h
      · cases h
      next htag =>
        cases hl : takeLength b with
        | none => simp [hl] at h
        | some p =>
          obtain ⟨len, b'⟩ := p
          obtain ⟨l, hlen, rfl⟩ := takeLength_eq_some_iff.mp hl
          simp only [hl] at h
          split at h
          · cases h
          next hle =>
            cases h
            have hlen' : IsLength l (b'.take len).length := by
              rwa [List.length_take, Nat.min_eq_left (Nat.not_lt.mp hle)]
            refine ⟨_, .mk hlen', ?_⟩
            rw [not_ne_iff.mp htag, List.cons_append, List.append_assoc, List.take_append_drop]
  · rintro ⟨c, hc, rfl⟩
    cases hc with
    | @mk l body hl =>
      have ht : takeLength (l ++ (body ++ rest)) = some (body.length, body ++ rest) :=
        takeLength_eq_some_iff.mpr ⟨l, hl, rfl⟩
      simp [takeInteger, ht]

theorem readNumbers_eq_some_iff : readNumbers b = some (r, s) ↔ Spells b r s := by
  constructor
  · intro h
    cases b with
    | nil => cases h
    | cons tag b =>
      rw [readNumbers] at h
      split at h
      · cases h
      next htag =>
        cases hr : (skipLength b).bind takeInteger with
        | none => simp [hr] at h
        | some p =>
          obtain ⟨r', b₁⟩ := p
          simp only [hr] at h
          cases hs : takeInteger b₁ with
          | none => simp [hs] at h
          | some q =>
            obtain ⟨s', b₂⟩ := q
            simp only [hs] at h
            cases h
            obtain ⟨b₀, hskip, htake⟩ := Option.bind_eq_some_iff.mp hr
            obtain ⟨l, hl, rfl⟩ := skipLength_eq_some_iff.mp hskip
            obtain ⟨br, hbr, rfl⟩ := takeInteger_eq_some_iff.mp htake
            obtain ⟨bs, hbs, rfl⟩ := takeInteger_eq_some_iff.mp hs
            rw [not_ne_iff.mp htag]
            exact ⟨hl, hbr, hbs, b₂⟩
  · rintro ⟨hl, hr, hs, rest⟩
    rw [readNumbers, if_neg (by decide), skipLength_eq_some_iff.mpr ⟨_, hl, rfl⟩,
      Option.bind_some, takeInteger_eq_some_iff.mpr ⟨_, hr, rfl⟩]
    dsimp only
    rw [takeInteger_eq_some_iff.mpr ⟨_, hs, rfl⟩]

/-- The zero in front of a byte from the half on does not change the number. -/
theorem toNatBE_integerBody (n : Nat) : Bytes.toNatBE (integerBody n) = n := by
  have hn := Bytes.toNatBE_minimalBE n
  rw [integerBody]
  split
  next he => rw [← hn, he]; rfl
  next x b he =>
    rw [he] at hn
    split
    · exact hn
    · exact hn

theorem length_integerBody_le {width : Nat} (hn : n < 256 ^ width) :
    (integerBody n).length ≤ width + 1 := by
  have hl := Bytes.length_minimalBE_le hn
  rw [integerBody]
  split
  · exact Nat.le_add_left 1 width
  next x b he =>
    rw [he] at hl
    split
    · exact Nat.succ_le_succ hl
    · exact Nat.le_succ_of_le hl

theorem toNat_ofNat_of_short (hn : n < 0x80) :
    (UInt8.ofNat n).toNat = n ∧ UInt8.ofNat n < 0x80 := by
  have hx : (UInt8.ofNat n).toNat = n := by
    rw [UInt8.toNat_ofNat', Nat.mod_eq_of_lt (by omega)]
  exact ⟨hx, UInt8.lt_iff_toNat_lt.mpr (by rwa [hx])⟩

theorem isInteger_tagged (hb : body.length < 0x80) :
    IsInteger (tagged 0x02 body) (Bytes.toNatBE body) := by
  obtain ⟨hx, hlt⟩ := toNat_ofNat_of_short hb
  have hl := IsLength.short hlt
  rw [hx] at hl
  exact .mk hl

theorem length_tagged (tag : UInt8) (body : Bytes) : (tagged tag body).length = body.length + 2 :=
  rfl

theorem length_integerBody_scalar_le (x : Scalar) : (integerBody x.val).length ≤ 33 := by
  have hle : order ≤ 256 ^ 32 := by decide
  exact length_integerBody_le (Nat.lt_of_lt_of_le x.isLt hle)

theorem isInteger_integerBody (x : Scalar) : IsInteger (tagged 0x02 (integerBody x.val)) x.val := by
  have hl := length_integerBody_scalar_le x
  have hlt : (integerBody x.val).length < 0x80 := by omega
  have hi := isInteger_tagged hlt
  rwa [toNatBE_integerBody] at hi

theorem spells_encode (sig : Signature) : Spells (encode sig) sig.r.val sig.s.val := by
  have hr := length_integerBody_scalar_le sig.r
  have hs := length_integerBody_scalar_le sig.s
  have hlen : (tagged 0x02 (integerBody sig.r.val) ++
      tagged 0x02 (integerBody sig.s.val)).length < 0x80 := by
    rw [List.length_append, length_tagged, length_tagged]
    omega
  have hall := Spells.mk (.short (toNat_ofNat_of_short hlen).2) (isInteger_integerBody sig.r)
    (isInteger_integerBody sig.s) []
  rwa [List.append_nil] at hall

theorem readNumbers_encode (sig : Signature) :
    readNumbers (encode sig) = some (sig.r.val, sig.s.val) :=
  readNumbers_eq_some_iff.mpr (spells_encode sig)

theorem decode?_encode (sig : Signature) : decode? (encode sig) = some sig := by
  rw [decode?, readNumbers_encode, Option.map_some, Signature.ofNumbers,
    dif_pos ⟨sig.r.isLt, sig.s.isLt⟩]

def looseInteger (n : Nat) : Bytes := 0x02 :: ([0x82, 0, 34] ++ (0 :: 0 :: Bytes.ofNatBE 32 n))

def loose (r s : Nat) : Bytes := 0x30 :: ([0x81, 0] ++ (looseInteger r ++ (looseInteger s ++ [0])))

theorem isInteger_looseInteger (hn : n < 256 ^ 32) : IsInteger (looseInteger n) n := by
  have hbody : Bytes.toNatBE (0 :: 0 :: Bytes.ofNatBE 32 n) = n := Bytes.toNatBE_ofNatBE_of_lt hn
  have hlen : (0 :: 0 :: Bytes.ofNatBE 32 n).length = 34 := by
    rw [List.length_cons, List.length_cons, Bytes.length_ofNatBE]
  have hl : IsLength [0x82, 0, 34] (0 :: 0 :: Bytes.ofNatBE 32 n).length := by
    rw [hlen]
    exact .long (by decide) rfl (by decide)
  have hi := IsInteger.mk hl
  rwa [hbody] at hi

theorem spells_loose (hr : r < 256 ^ 32) (hs : s < 256 ^ 32) : Spells (loose r s) r s := by
  have hl : IsPassed [0x81, 0] := .long (by decide) rfl
  exact .mk hl (isInteger_looseInteger hr) (isInteger_looseInteger hs) [0]

end ChainAnchor.Der
