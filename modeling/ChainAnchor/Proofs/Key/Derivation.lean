import ChainAnchor.Key.Extended
import ChainAnchor.Proofs.Curve.Encoding
import ChainAnchor.Proofs.Curve.Group

namespace ChainAnchor

open Curve Point

namespace PublicKey

variable {p : Point}

theorem bytes_ofPoint (compressed : Bool) (p : Point) :
    (ofPoint compressed p).bytes = p.encode compressed := by
  have hl : (p.encode compressed).length = announcedLength (p.encode compressed) := by
    cases p with
    | infinity => rfl
    | affine x y =>
      rw [length_encode]
      cases compressed with
      | false => rfl
      | true =>
        change 33 = encodedLength (if isOdd y then 3 else 2)
        split <;> rfl
  rw [ofPoint, ofBytes, dif_pos hl]

theorem point?_ofPoint (compressed : Bool) (hp : p.IsOnCurve) (hne : p ≠ infinity) :
    (ofPoint compressed p).point? = some p := by
  rw [point?, bytes_ofPoint, decode?_encode compressed hp hne]

theorem compress_ofPoint (compressed : Bool) (hp : p.IsOnCurve) (hne : p ≠ infinity) :
    (ofPoint compressed p).compress = some (ofPoint true p) := by
  rw [compress, inForm, point?_ofPoint compressed hp hne, Option.map_some]

theorem isCompressed_ofPoint (compressed : Bool) (hne : p ≠ infinity) :
    (ofPoint compressed p).isCompressed = compressed := by
  rw [isCompressed, bytes_ofPoint]
  cases p with
  | infinity => exact absurd rfl hne
  | affine x y =>
    rw [length_encode]
    cases compressed <;> rfl

theorem addTweak?_eq (t : Scalar) (p : Point) :
    addTweak? t p =
      if p.add (multiply t.val generator) = infinity then none
      else some (p.add (multiply t.val generator)) := by
  rw [addTweak?]
  split
  next h => rw [if_pos h]
  next h => rw [if_neg h]

end PublicKey

theorem PrivateKey.isSecret_iff {b : Bytes} :
    isSecret b = true ↔ 0 < Bytes.toNatBE b ∧ Bytes.toNatBE b < order := by
  simp [isSecret]

def secretPoint (secret : Digest 32) : Point := multiply (Bytes.toNatBE secret.bytes) generator

theorem isOnCurve_secretPoint (secret : Digest 32) : (secretPoint secret).IsOnCurve :=
  isOnCurve_multiply_generator _

theorem secretPoint_ne_infinity {secret : Digest 32}
    (hs : PrivateKey.isSecret secret.bytes = true) : secretPoint secret ≠ infinity := by
  obtain ⟨hpos, hlt⟩ := PrivateKey.isSecret_iff.mp hs
  rw [secretPoint, Ne, multiply_generator_eq_infinity_iff]
  exact Nat.not_dvd_of_pos_of_lt hpos hlt

namespace PrivateKey

variable {k : PrivateKey} {secret tweak : Digest 32}

structure Usable (k : PrivateKey) : Prop where
  valid : k.valid = true
  isSecret : isSecret k.secret.bytes = true

theorem scalar_eq_ok_iff {s : Scalar} :
    k.scalar = .ok s ↔ k.Usable ∧ s = Signature.scalarOf k.secret := by
  rw [scalar]
  cases hv : k.valid with
  | false => exact ⟨fun h ↦ (by cases h), fun h ↦ absurd (hv.symm.trans h.1.valid) (by decide)⟩
  | true =>
    rw [if_neg (by decide)]
    cases hs : isSecret k.secret.bytes with
    | false => exact ⟨fun h ↦ (by cases h), fun h ↦ absurd (hs.symm.trans h.1.isSecret) (by decide)⟩
    | true => exact ⟨fun h ↦ ⟨⟨hv, hs⟩, (Except.ok.inj h).symm⟩, fun h ↦ h.2 ▸ rfl⟩

theorem point_eq_ok_iff {p : Point} :
    k.point = .ok p ↔ k.Usable ∧ p = secretPoint k.secret := by
  rw [point]
  cases hs : k.scalar with
  | error e =>
    refine ⟨fun h ↦ (by cases h), fun h ↦ ?_⟩
    rw [scalar_eq_ok_iff.mpr ⟨h.1, rfl⟩] at hs
    cases hs
  | ok s =>
    obtain ⟨hk, rfl⟩ := scalar_eq_ok_iff.mp hs
    have hp : multiply (Signature.scalarOf k.secret).val generator = secretPoint k.secret :=
      multiply_generator_mod _
    dsimp only
    rw [hp]
    exact ⟨fun h ↦ ⟨hk, (Except.ok.inj h).symm⟩, fun h ↦ h.2 ▸ rfl⟩

theorem toNatBE_ofNatBE_sum (n : Nat) :
    Bytes.toNatBE (Digest.ofNatBE (n := 32) (n % order)).bytes = n % order := by
  have hle : order ≤ 256 ^ 32 := by decide
  have hlt : n % order < order := Nat.mod_lt n order_prime.pos
  exact Bytes.toNatBE_ofNatBE_of_lt (hlt.trans_le hle)

theorem tweak?_eq_some_iff {s : Digest 32} :
    tweak? secret tweak = some s ↔ Bytes.toNatBE tweak.bytes < order ∧
      (Bytes.toNatBE secret.bytes + Bytes.toNatBE tweak.bytes) % order ≠ 0 ∧
      s = Digest.ofNatBE ((Bytes.toNatBE secret.bytes + Bytes.toNatBE tweak.bytes) % order) := by
  rw [tweak?]
  dsimp only
  split
  next hle => exact ⟨fun h ↦ (by cases h), fun h ↦ absurd h.1 (Nat.not_lt.mpr hle)⟩
  next hlt =>
    split
    next hzero => exact ⟨fun h ↦ (by cases h), fun h ↦ absurd hzero h.2.1⟩
    next hne =>
      exact ⟨fun h ↦ ⟨Nat.not_le.mp hlt, hne, (Option.some.inj h).symm⟩, fun h ↦ h.2.2 ▸ rfl⟩

theorem tweak?_eq_none_iff :
    tweak? secret tweak = none ↔ order ≤ Bytes.toNatBE tweak.bytes ∨
      (Bytes.toNatBE secret.bytes + Bytes.toNatBE tweak.bytes) % order = 0 := by
  rw [tweak?]
  dsimp only
  split
  next hle => exact iff_of_true rfl (Or.inl hle)
  next hlt =>
    split
    next hzero => exact iff_of_true rfl (Or.inr hzero)
    next hne => exact iff_of_false (fun h ↦ by cases h) (not_or.mpr ⟨hlt, hne⟩)

theorem isSecret_of_tweak? {s : Digest 32} (hs : tweak? secret tweak = some s) :
    isSecret s.bytes = true := by
  obtain ⟨-, hne, rfl⟩ := tweak?_eq_some_iff.mp hs
  rw [isSecret_iff, toNatBE_ofNatBE_sum]
  exact ⟨Nat.pos_of_ne_zero hne, Nat.mod_lt _ order_prime.pos⟩

/-- A secret and its point take the same numbers, with the same result. -/
theorem tweak?_map_secretPoint (secret tweak : Digest 32) :
    (tweak? secret tweak).map secretPoint =
      if h : Bytes.toNatBE tweak.bytes < order then
        PublicKey.addTweak? ⟨Bytes.toNatBE tweak.bytes, h⟩ (secretPoint secret)
      else none := by
  rw [tweak?]
  generalize hsum : Bytes.toNatBE secret.bytes + Bytes.toNatBE tweak.bytes = sum
  by_cases ht : Bytes.toNatBE tweak.bytes < order
  · rw [dif_pos ht, PublicKey.addTweak?_eq, secretPoint, add_multiply_generator, hsum]
    simp only [if_neg (Nat.not_le.mpr ht), multiply_generator_eq_infinity_iff,
      Nat.dvd_iff_mod_eq_zero]
    split
    next => rfl
    next =>
      rw [Option.map_some, secretPoint, toNatBE_ofNatBE_sum, multiply_generator_mod]
  · rw [dif_neg ht]
    simp only [if_pos (Nat.not_lt.mp ht), Option.map_none]

/-- The hash that a child of a usable key is derived from: a hardened child's starts from the secret
and any other one's from the point. -/
def childDigest (k : PrivateKey) (child : UInt32) (code : ChainCode) : Digest 64 :=
  childHash code child
    (if child < hardenedChild then (secretPoint k.secret).encode true else 0 :: k.secret.bytes)

theorem derive_of_usable (hk : k.Usable) (child : UInt32) (code : ChainCode) :
    k.derive child code = (tweak? k.secret (leftHalf (k.childDigest child code))).map fun s ↦
      (⟨s, true, true⟩, rightHalf (k.childDigest child code)) := by
  have hd : k.childData child = .ok (if child < hardenedChild then
      (secretPoint k.secret).encode true else 0 :: k.secret.bytes) := by
    rw [childData, point_eq_ok_iff.mpr ⟨hk, rfl⟩]
    split <;> rfl
  rw [derive, hk.valid, if_neg (by decide), hd]
  dsimp only
  rw [childDigest]
  cases tweak? k.secret _ <;> rfl

theorem derive_eq {child : UInt32} (hc : child < hardenedChild) (code : ChainCode)
    (hk : k.Usable) :
    let out := childHash code child ((secretPoint k.secret).encode true)
    k.derive child code =
      (tweak? k.secret (leftHalf out)).map fun s ↦ (⟨s, true, true⟩, rightHalf out) := by
  have hd := derive_of_usable hk child code
  rwa [childDigest, if_pos hc] at hd

/-- A public key derives the point of the secret that the private key derives. -/
theorem derive_ofPoint {child : UInt32} (hc : child < hardenedChild) (code : ChainCode)
    (hs : isSecret secret.bytes = true) :
    let out := childHash code child ((secretPoint secret).encode true)
    (PublicKey.ofPoint true (secretPoint secret)).derive child code =
      (tweak? secret (leftHalf out)).map fun s ↦
        (PublicKey.ofPoint true (secretPoint s), rightHalf out) := by
  intro out
  have hne := secretPoint_ne_infinity hs
  have hp := PublicKey.point?_ofPoint true (isOnCurve_secretPoint _) hne
  have hm : (tweak? secret (leftHalf out)).map (fun s ↦
      (PublicKey.ofPoint true (secretPoint s), rightHalf out)) =
      ((tweak? secret (leftHalf out)).map secretPoint).map fun p ↦
        (PublicKey.ofPoint true p, rightHalf out) := by
    rw [Option.map_map]
    rfl
  rw [PublicKey.derive, PublicKey.isCompressed_ofPoint true hne, PublicKey.bytes_ofPoint,
    if_neg (by simp [UInt32.not_le.mpr hc]), hp, hm, tweak?_map_secretPoint]
  simp only [Option.bind_some]
  split
  next ht =>
    cases PublicKey.addTweak? ⟨Bytes.toNatBE (leftHalf out).bytes, ht⟩ (secretPoint secret) <;> rfl
  next => rfl

end PrivateKey

namespace ExtendedPrivateKey

variable {x : ExtendedPrivateKey}

/-- Whatever the form of the key, its public key is brought into the short form. -/
theorem compressedKey_eq_ok_iff {pub : PublicKey} :
    x.compressedKey = .ok pub ↔
      x.key.Usable ∧ pub = .ofPoint true (secretPoint x.key.secret) := by
  rw [compressedKey, PrivateKey.publicKey]
  cases hp : x.key.point with
  | error e =>
    refine ⟨fun h ↦ (by cases h), fun h ↦ ?_⟩
    rw [PrivateKey.point_eq_ok_iff.mpr ⟨h.1, rfl⟩] at hp
    cases hp
  | ok p =>
    obtain ⟨hk, rfl⟩ := PrivateKey.point_eq_ok_iff.mp hp
    dsimp only
    rw [PublicKey.compress_ofPoint _ (isOnCurve_secretPoint _)
      (secretPoint_ne_infinity hk.isSecret)]
    exact ⟨fun h ↦ ⟨hk, (Except.ok.inj h).symm⟩, fun h ↦ h.2 ▸ rfl⟩

theorem neuter_eq_ok_iff {y : ExtendedPublicKey} :
    x.neuter = .ok y ↔
      x.key.Usable ∧ y = ⟨x.position, .ofPoint true (secretPoint x.key.secret)⟩ := by
  rw [neuter]
  cases hc : x.compressedKey with
  | error e =>
    refine ⟨fun h ↦ (by cases h), fun h ↦ ?_⟩
    rw [compressedKey_eq_ok_iff.mpr ⟨h.1, rfl⟩] at hc
    cases hc
  | ok pub =>
    obtain ⟨hk, rfl⟩ := compressedKey_eq_ok_iff.mp hc
    dsimp only
    rw [ExtendedPublicKey.new,
      PublicKey.isCompressed_ofPoint true (secretPoint_ne_infinity hk.isSecret), if_pos rfl]
    exact ⟨fun h ↦ ⟨hk, (Except.ok.inj h).symm⟩, fun h ↦ h.2 ▸ rfl⟩

/-- Taking the secret away and deriving a child that needs no secret can change places: one of the
two ways fails exactly if the other one does, and otherwise both lead to the same key. -/
theorem neuter_derive (x : ExtendedPrivateKey) (child : UInt32) (hc : child < hardenedChild) :
    ((∃ y, x.neuter = .ok y) ↔ x.key.Usable) ∧
      ∀ y, x.neuter = .ok y → (x.derive child).map neuter = (y.derive child).map .ok := by
  refine ⟨⟨fun ⟨y, hy⟩ ↦ (neuter_eq_ok_iff.mp hy).1, fun h ↦ ⟨_, neuter_eq_ok_iff.mpr ⟨h, rfl⟩⟩⟩,
    fun y hy ↦ ?_⟩
  obtain ⟨hk, rfl⟩ := neuter_eq_ok_iff.mp hy
  rw [derive, ExtendedPublicKey.derive, compressedKey_eq_ok_iff.mpr ⟨hk, rfl⟩]
  dsimp only
  rw [PrivateKey.derive_eq hc _ hk, PrivateKey.derive_ofPoint hc _ hk.isSecret]
  cases ht : PrivateKey.tweak? x.key.secret (leftHalf (childHash x.position.chainCode child
    ((secretPoint x.key.secret).encode true))) with
  | none => rfl
  | some s =>
    dsimp only [Option.map_some]
    rw [Option.map_map, Option.map_map]
    refine Option.map_congr fun position _ ↦ ?_
    exact neuter_eq_ok_iff.mpr ⟨⟨rfl, PrivateKey.isSecret_of_tweak? ht⟩, rfl⟩

def unitKey : ExtendedPrivateKey :=
  ⟨⟨3, Digest.zero, 5, Digest.ofNatBE 7⟩, ⟨Digest.ofNatBE 1, true, false⟩⟩

theorem neuter_derive_unit :
    (7 : UInt32) < hardenedChild ∧
      (((∃ y, unitKey.neuter = .ok y) ↔ unitKey.key.Usable) ∧
        ∀ y, unitKey.neuter = .ok y → (unitKey.derive 7).map neuter = (y.derive 7).map .ok) ∧
      unitKey.key.Usable ∧ (unitKey.derive 7).isSome = true := by
  have hc : (7 : UInt32) < hardenedChild := by decide
  exact ⟨hc, neuter_derive unitKey 7 hc, ⟨rfl, by decide +kernel⟩, by decide +kernel⟩

end ExtendedPrivateKey

end ChainAnchor
