import ChainAnchor.Proofs.Ecdsa.Recovery
import ChainAnchor.Proofs.Key.Signing

namespace ChainAnchor

open Curve Point

namespace PublicKey

def compactHeader (id : Nat) (compressed : Bool) : UInt8 :=
  UInt8.ofNat (27 + id + if compressed then 4 else 0)

theorem compactHeader_spec : ∀ id < 4, ∀ compressed,
    27 ≤ compactHeader id compressed ∧ compactHeader id compressed ≤ 34 ∧
      (compactHeader id compressed - 27).toNat % 4 = id ∧
      ((compactHeader id compressed - 27).toNat / 4 == 1) = compressed := by
  decide

theorem length_cons_numbers (header : UInt8) (sig : Signature) :
    (header :: sig.numbers).length = compactSignatureSize := by
  rw [List.length_cons, Signature.numbers, List.length_append, Bytes.length_ofNatBE,
    Bytes.length_ofNatBE]
  rfl

theorem recoverCompact_cons {id : Nat} (hid : id < 4) (compressed : Bool) (sig : Signature)
    (h : Hash) :
    recoverCompact h (compactHeader id compressed :: sig.numbers) =
      (sig.recover? id (Signature.scalarOf h)).map (ofPoint compressed) := by
  obtain ⟨hlow, hhigh, hmod, hdiv⟩ := compactHeader_spec id hid compressed
  have hlt : ¬compactHeader id compressed < 27 := UInt8.not_lt.mpr hlow
  have hle : ¬35 ≤ compactHeader id compressed := fun hle ↦
    absurd (UInt8.le_trans hle hhigh) (by decide : ¬(35 : UInt8) ≤ 34)
  rw [recoverCompact, length_cons_numbers, Signature.ofCompact?_numbers]
  simp only [ne_eq, not_true_eq_false, hlt, hle, or_false, if_false, hmod, hdiv]

end PublicKey

namespace PrivateKey

variable {k : PrivateKey} {h : Hash} {sig : Signature}

theorem recoveryId?_eq_some {own : PublicKey} {compressed : Bool} {z : Scalar} {id : Nat}
    (hid : recoveryId? own compressed sig z = some id) :
    id < 4 ∧ (sig.recover? id z).map (PublicKey.ofPoint compressed) = some own := by
  have hmem := List.mem_of_find?_eq_some hid
  have hown := List.find?_some hid
  refine ⟨?_, beq_iff_eq.mp hown⟩
  simp only [List.mem_cons, List.not_mem_nil, or_false] at hmem
  omega

theorem exists_recoveryId? {own : PublicKey} {compressed : Bool} {z : Scalar} {id : Nat}
    (hid : id < 4) (hown : (sig.recover? id z).map (PublicKey.ofPoint compressed) = some own) :
    ∃ found, recoveryId? own compressed sig z = some found := by
  have hmem : id ∈ [0, 1, 2, 3] := by
    simp only [List.mem_cons, List.not_mem_nil, or_false]
    omega
  exact Option.isSome_iff_exists.mp (List.find?_isSome.mpr ⟨id, hmem, beq_iff_eq.mpr hown⟩)

/-- One of the ids recovers the point of the secret, so the trial ends with an id that does. -/
theorem exists_recoveryId?_of_sign? (hk : k.Usable)
    (hs : Signature.sign? k.secret h = some sig) :
    ∃ id, recoveryId? (.ofPoint k.compressed (secretPoint k.secret)) k.compressed sig
      (Signature.scalarOf h) = some id := by
  obtain ⟨⟨nonce, hsolves⟩, -⟩ := exists_solves hs
  obtain ⟨id, hid, hp⟩ := hsolves.exists_noncePoint?
  have hsecret : Signature.scalarOf k.secret ≠ 0 := by
    rw [Ne, ← multiply_scalar_eq_infinity_iff, ← secretPoint_eq]
    exact secretPoint_ne_infinity hk.isSecret
  have hrec := hsolves.recover? hsecret hp
  rw [← secretPoint_eq] at hrec
  exact exists_recoveryId? hid (by rw [hrec, Option.map_some])

theorem exists_signCompact (hk : k.Usable) (hs : Signature.sign? k.secret h = some sig) :
    ∃ id < 4, k.signCompact h = .ok (PublicKey.compactHeader id k.compressed :: sig.numbers) ∧
      PublicKey.recoverCompact h (PublicKey.compactHeader id k.compressed :: sig.numbers) =
        some (.ofPoint k.compressed (secretPoint k.secret)) := by
  obtain ⟨id, hid⟩ := exists_recoveryId?_of_sign? hk hs
  obtain ⟨hlt, hown⟩ := recoveryId?_eq_some hid
  refine ⟨id, hlt, ?_, ?_⟩
  · rw [signCompact, publicKey_eq hk, signature_eq hk hs]
    dsimp only
    rw [hid]
    rfl
  · rw [PublicKey.recoverCompact_cons hlt, hown]

/-- A key that makes no signature at all fails for another reason than that none of the recovery
ids fits. -/
theorem signCompact_cases (k : PrivateKey) (h : Hash) :
    (∃ sig, k.Usable ∧ Signature.sign? k.secret h = some sig) ∨
      ∃ e, k.signCompact h = .error e ∧ e ≠ .recoveryFailed := by
  by_cases hk : k.Usable
  · cases hs : Signature.sign? k.secret h with
    | some sig => exact Or.inl ⟨sig, hk, rfl⟩
    | none =>
      refine Or.inr ⟨.noNonce, ?_, by decide⟩
      rw [signCompact, publicKey_eq hk, signature, scalar_eq_ok_iff.mpr ⟨hk, rfl⟩, hs]
  · obtain ⟨e, he, hne⟩ : ∃ e, k.scalar = .error e ∧ e ≠ .recoveryFailed := by
      rw [scalar]
      split
      next => exact ⟨_, rfl, by decide⟩
      next hv =>
        split
        next hs => exact absurd ⟨by simpa using hv, hs⟩ hk
        next => exact ⟨_, rfl, by decide⟩
    exact Or.inr ⟨e, by rw [signCompact, publicKey, point, he], hne⟩

/-- A signature that names its key: the header is in its range, the public key is recovered from it
in the form of the private one, and it verifies the signature.  A key never fails for want of a
recovery id, and where the search for a nonce ends no valid key fails. -/
theorem recoverCompact_signCompact (k : PrivateKey) (h : Hash) :
    (∀ b, k.signCompact h = .ok b →
      ∃ header numbers pub, b = header :: numbers ∧ 27 ≤ header ∧ header ≤ 34 ∧
        b.length = PublicKey.compactSignatureSize ∧ k.publicKey = .ok pub ∧
        pub.isCompressed = k.compressed ∧ PublicKey.recoverCompact h b = some pub ∧
        pub.verifyCompact h b = true) ∧
      k.signCompact h ≠ .error .recoveryFailed ∧
      ((∃ b, k.signCompact h = .ok b) ↔ k.Usable ∧ Signature.Signable k.secret h) := by
  rcases k.signCompact_cases h with ⟨sig, hk, hs⟩ | ⟨e, he, hne⟩
  · obtain ⟨id, hid, hsign, hrec⟩ := exists_signCompact hk hs
    obtain ⟨hlow, hhigh, -⟩ := PublicKey.compactHeader_spec id hid k.compressed
    refine ⟨fun b hb ↦ ?_, fun he ↦ ?_,
      iff_of_true ⟨_, hsign⟩ ⟨hk, Signature.signable_iff.mpr ⟨sig, hs⟩⟩⟩
    · rw [hsign] at hb
      cases hb
      refine ⟨_, _, _, rfl, hlow, hhigh, PublicKey.length_cons_numbers _ sig, publicKey_eq hk,
        PublicKey.isCompressed_ofPoint _ (secretPoint_ne_infinity hk.isSecret), hrec, ?_⟩
      rw [PublicKey.verifyCompact, hrec]
      exact beq_self_eq_true _
    · rw [hsign] at he
      cases he
  · rw [he]
    refine ⟨fun b hb ↦ (by cases hb), fun hf ↦ hne (Except.error.inj hf),
      iff_of_false (fun ⟨b, hb⟩ ↦ by cases hb) fun ⟨hk, hs⟩ ↦ ?_⟩
    obtain ⟨sig, hsig⟩ := Signature.signable_iff.mp hs
    obtain ⟨id, -, hsign, -⟩ := exists_signCompact hk hsig
    rw [he] at hsign
    cases hsign

theorem recoverCompact_signCompact_one :
    (one true).Usable ∧ Signature.Signable (one true).secret Digest.zero ∧
      ∃ b header numbers pub, (one true).signCompact Digest.zero = .ok b ∧
        b = header :: numbers ∧ 27 ≤ header ∧ header ≤ 34 ∧
        b.length = PublicKey.compactSignatureSize ∧ (one true).publicKey = .ok pub ∧
        pub.isCompressed = true ∧ PublicKey.recoverCompact Digest.zero b = some pub ∧
        pub.verifyCompact Digest.zero b = true := by
  obtain ⟨hrecovered, -, hsigned⟩ := recoverCompact_signCompact (one true) Digest.zero
  obtain ⟨b, hb⟩ := hsigned.mpr ⟨usable_one true, Signature.signable_one⟩
  obtain ⟨header, numbers, pub, hrest⟩ := hrecovered b hb
  exact ⟨usable_one true, Signature.signable_one, b, header, numbers, pub, hb, hrest⟩

end PrivateKey

end ChainAnchor
