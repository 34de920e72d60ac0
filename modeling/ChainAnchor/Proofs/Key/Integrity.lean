import ChainAnchor.Proofs.Key.Signing

namespace ChainAnchor

open Curve

namespace PrivateKey

variable {k : PrivateKey} {b : Bytes} {compressed : Bool}

def Intact (k : PrivateKey) : Prop :=
  (k.valid = true ∧ 0 < Bytes.toNatBE k.secret.bytes ∧ Bytes.toNatBE k.secret.bytes < order) ∨
    (k.valid = false ∧ k.secret = Digest.zero)

theorem Usable.intact (hk : k.Usable) : k.Intact := Or.inl ⟨hk.valid, isSecret_iff.mp hk.isSecret⟩

theorem Intact.usable (hk : k.Intact) (hv : k.valid = true) : k.Usable := by
  rcases hk with ⟨-, hs⟩ | ⟨hf, -⟩
  · exact ⟨hv, isSecret_iff.mpr hs⟩
  · simp [hv] at hf

theorem set_cases (k : PrivateKey) (b : Bytes) (compressed : Bool) :
    (∃ h : b.length = 32, isSecret b = true ∧
      k.set b compressed = (true, ⟨⟨b, h⟩, true, compressed⟩)) ∨
      (¬(b.length = 32 ∧ isSecret b = true) ∧
        k.set b compressed = (false, ⟨Digest.zero, false, k.compressed⟩)) := by
  by_cases hl : b.length = 32
  · by_cases hs : isSecret b = true
    · exact Or.inl ⟨hl, hs, by simp [set, Digest.ofBytes?, hl, hs]⟩
    · exact Or.inr ⟨fun h ↦ hs h.2, by simp [set, Digest.ofBytes?, hl, hs]⟩
  · exact Or.inr ⟨fun h ↦ hl h.1, by simp [set, Digest.ofBytes?, hl]⟩

theorem set_fst_iff :
    (k.set b compressed).1 = true ↔
      b.length = 32 ∧ 0 < Bytes.toNatBE b ∧ Bytes.toNatBE b < order := by
  rw [← isSecret_iff]
  rcases k.set_cases b compressed with ⟨hl, hs, he⟩ | ⟨hn, he⟩
  · simp [he, hl, hs]
  · simp [he, hn]

theorem intact_set (k : PrivateKey) (b : Bytes) (compressed : Bool) :
    (k.set b compressed).2.Intact := by
  rcases k.set_cases b compressed with ⟨hl, hs, he⟩ | ⟨-, he⟩
  · rw [he]
    exact Usable.intact ⟨rfl, hs⟩
  · rw [he]
    exact Or.inr ⟨rfl, rfl⟩

theorem usable_of_ofBytes (h : ofBytes b compressed = .ok k) : k.Usable := by
  rcases new.set_cases b compressed with ⟨hl, hs, he⟩ | ⟨-, he⟩
  · rw [ofBytes, he] at h
    cases h
    exact ⟨rfl, hs⟩
  · rw [ofBytes, he] at h
    cases h

theorem usable_of_ofHex {s : String} (h : ofHex s compressed = .ok k) : k.Usable := by
  rw [ofHex] at h
  split at h
  · cases h
  · exact usable_of_ofBytes h

theorem usable_of_load {pub : PublicKey} {skip : Bool} {challenge : Bytes}
    (h : load b pub skip challenge = .ok k) : k.Usable := by
  rw [load] at h
  split at h
  · cases h
  next hk =>
    split at h
    · cases h
      exact usable_of_ofBytes hk
    · cases h

theorem usable_of_generate {supply rest : Bytes} (h : generate compressed supply = some (k, rest)) :
    k.Usable := by
  fun_induction generate compressed supply with
  | case1 => cases h
  | case2 supply b rest _ hs =>
    cases h
    exact ⟨rfl, hs⟩
  | case3 supply b rest _ _ ih => exact ih h

theorem usable_of_master {seed : Bytes} {x : ExtendedPrivateKey}
    (h : ExtendedPrivateKey.master seed = .ok x) : x.key.Usable := by
  -- unfolded as a function, since of a seed the hash would be computed
  have hm : ExtendedPrivateKey.master = ExtendedPrivateKey.master := rfl
  conv_rhs at hm => delta ExtendedPrivateKey.master
  rw [hm] at h
  beta_reduce at h
  generalize Hmac.sha512 ExtendedPrivateKey.seedKey seed = out at h
  dsimp only at h
  split at h
  · cases h
  next hk =>
    cases h
    exact usable_of_ofBytes hk

theorem usable_of_decode {d : Digest 74} {x : ExtendedPrivateKey}
    (h : ExtendedPrivateKey.decode d = .ok x) : x.key.Usable := by
  rw [ExtendedPrivateKey.decode] at h
  split at h
  · cases h
  split at h
  · cases h
  next hk =>
    cases h
    exact usable_of_ofBytes hk

theorem Intact.derive_eq (hk : k.Intact) (child : UInt32) (code : ChainCode) :
    k.derive child code = if k.valid = true then
      (tweak? k.secret (leftHalf (k.childDigest child code))).map fun s ↦
        (⟨s, true, true⟩, rightHalf (k.childDigest child code)) else none := by
  cases hv : k.valid with
  | true => rw [if_pos rfl, derive_of_usable (hk.usable hv)]
  | false => simp [derive, hv]

/-- The keys that can be made.  A copy of a key is the key itself. -/
inductive Reachable : PrivateKey → Prop
  | new : Reachable new
  | generate {compressed : Bool} {supply rest : Bytes} {k : PrivateKey}
      (h : generate compressed supply = some (k, rest)) : Reachable k
  | ofBytes {b : Bytes} {compressed : Bool} {k : PrivateKey} (h : ofBytes b compressed = .ok k) :
      Reachable k
  | ofHex {s : String} {compressed : Bool} {k : PrivateKey} (h : ofHex s compressed = .ok k) :
      Reachable k
  | load {b : Bytes} {pub : PublicKey} {skip : Bool} {challenge : Bytes} {k : PrivateKey}
      (h : load b pub skip challenge = .ok k) : Reachable k
  | master {seed : Bytes} {x : ExtendedPrivateKey} (h : ExtendedPrivateKey.master seed = .ok x) :
      Reachable x.key
  | decode {d : Digest 74} {x : ExtendedPrivateKey} (h : ExtendedPrivateKey.decode d = .ok x) :
      Reachable x.key
  | set {k : PrivateKey} (b : Bytes) (compressed : Bool) (hk : Reachable k) :
      Reachable (k.set b compressed).2
  | derive {k k' : PrivateKey} {child : UInt32} {code code' : ChainCode} (hk : Reachable k)
      (h : k.derive child code = some (k', code')) : Reachable k'

theorem Intact.derive {k' : PrivateKey} {child : UInt32} {code code' : ChainCode} (hk : k.Intact)
    (h : k.derive child code = some (k', code')) : k'.Intact := by
  rw [hk.derive_eq] at h
  split at h
  · obtain ⟨s, hs, he⟩ := Option.map_eq_some_iff.mp h
    cases he
    exact Usable.intact ⟨rfl, isSecret_of_tweak? hs⟩
  · cases h

theorem Reachable.intact (hk : k.Reachable) : k.Intact := by
  induction hk with
  | new => exact Or.inr ⟨rfl, rfl⟩
  | generate h => exact (usable_of_generate h).intact
  | ofBytes h => exact (usable_of_ofBytes h).intact
  | ofHex h => exact (usable_of_ofHex h).intact
  | load h => exact (usable_of_load h).intact
  | master h => exact (usable_of_master h).intact
  | decode h => exact (usable_of_decode h).intact
  | set b compressed _ _ => exact intact_set _ b compressed
  | derive _ h ih => exact ih.derive h

theorem Intact.scalar_ne (hk : k.Intact) : k.scalar ≠ .error .invalidSecret := by
  intro he
  cases hv : k.valid with
  | true =>
    rw [scalar_eq_ok_iff.mpr ⟨hk.usable hv, rfl⟩] at he
    cases he
  | false => simp [scalar, hv] at he

theorem Intact.sign_ne (hk : k.Intact) (h : Hash) : k.sign h ≠ .error .invalidSecret := by
  intro he
  have hs := hk.scalar_ne
  rw [sign, signature] at he
  -- whether a nonce is found does not matter, so the search is not to be run
  generalize Signature.sign? k.secret h = found at he
  cases hscalar : k.scalar with
  | error e => simp_all
  | ok s => cases found <;> simp [hscalar] at he

theorem Intact.publicKey_ne (hk : k.Intact) : k.publicKey ≠ .error .invalidSecret := by
  intro he
  have hs := hk.scalar_ne
  rw [publicKey, point] at he
  cases hscalar : k.scalar with
  | error e => simp_all
  | ok s => simp [hscalar] at he

/-- What can be relied on with a key, whatever was done before.  The child of a key has the sum of
the secret and the left half of a hash for its secret, and there is none only if this sum is no
secret or the half is out of range. -/
structure Dependable (k : PrivateKey) : Prop where
  intact : k.Intact
  set_iff : ∀ b compressed, (k.set b compressed).1 = true ↔
    b.length = 32 ∧ 0 < Bytes.toNatBE b ∧ Bytes.toNatBE b < order
  derive_eq_none_iff : ∀ child code, k.derive child code = none ↔ k.valid = false ∨
    order ≤ Bytes.toNatBE (leftHalf (k.childDigest child code)).bytes ∨
    (Bytes.toNatBE k.secret.bytes +
      Bytes.toNatBE (leftHalf (k.childDigest child code)).bytes) % order = 0
  secret_of_derive : ∀ ⦃child code k' code'⦄, k.derive child code = some (k', code') →
    k'.valid = true ∧ Bytes.toNatBE k'.secret.bytes = (Bytes.toNatBE k.secret.bytes +
      Bytes.toNatBE (leftHalf (k.childDigest child code)).bytes) % order
  sign_ne : ∀ h, k.sign h ≠ .error .invalidSecret
  publicKey_ne : k.publicKey ≠ .error .invalidSecret

theorem Intact.derive_eq_none_iff (hk : k.Intact) (child : UInt32) (code : ChainCode) :
    k.derive child code = none ↔ k.valid = false ∨
      order ≤ Bytes.toNatBE (leftHalf (k.childDigest child code)).bytes ∨
      (Bytes.toNatBE k.secret.bytes +
        Bytes.toNatBE (leftHalf (k.childDigest child code)).bytes) % order = 0 := by
  rw [hk.derive_eq]
  cases hv : k.valid with
  | true => rw [if_pos rfl, Option.map_eq_none_iff, tweak?_eq_none_iff]; simp
  | false => simp

theorem Intact.secret_of_derive {k' : PrivateKey} {child : UInt32} {code code' : ChainCode}
    (hk : k.Intact) (h : k.derive child code = some (k', code')) :
    k'.valid = true ∧ Bytes.toNatBE k'.secret.bytes = (Bytes.toNatBE k.secret.bytes +
      Bytes.toNatBE (leftHalf (k.childDigest child code)).bytes) % order := by
  rw [hk.derive_eq] at h
  split at h
  · obtain ⟨s, hs, he⟩ := Option.map_eq_some_iff.mp h
    cases he
    obtain ⟨-, -, rfl⟩ := tweak?_eq_some_iff.mp hs
    exact ⟨rfl, toNatBE_ofNatBE_sum _⟩
  · cases h

theorem dependable_of_reachable {k : PrivateKey} (hk : k.Reachable) : k.Dependable := by
  have hi := hk.intact
  exact ⟨hi, fun _ _ ↦ set_fst_iff, hi.derive_eq_none_iff, fun _ _ _ _ h ↦ hi.secret_of_derive h,
    hi.sign_ne, hi.publicKey_ne⟩

def mended : PrivateKey :=
  ((new.set (Bytes.ofNatBE 32 order) true).2.set (Bytes.ofNatBE 32 1) false).2

theorem reachable_mended : mended.Reachable := .set _ _ (.set _ _ .new)

theorem dependable_of_reachable_heir :
    ∃ k code, mended.derive hardenedChild Digest.zero = some (k, code) ∧ k.Reachable ∧
      k.Dependable := by
  have hsome : (mended.derive hardenedChild Digest.zero).isSome = true := by decide +kernel
  obtain ⟨⟨k, code⟩, hd⟩ := Option.isSome_iff_exists.mp hsome
  have hk : k.Reachable := .derive reachable_mended hd
  exact ⟨k, code, hd, hk, dependable_of_reachable hk⟩

end PrivateKey

end ChainAnchor
