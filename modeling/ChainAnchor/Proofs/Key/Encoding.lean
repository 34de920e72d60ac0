import ChainAnchor.Proofs.Codec.Restores
import ChainAnchor.Proofs.Key.Integrity

namespace ChainAnchor

open Curve

namespace Digest

variable {n : Nat} {b : Bytes}

theorem bytes_ofPrefix (hb : n ≤ b.length) : (ofPrefix (n := n) b).bytes = b.take n := by
  change b.take n ++ List.replicate (n - b.length) 0 = b.take n
  rw [Nat.sub_eq_zero_of_le hb, List.replicate_zero, List.append_nil]

theorem ofPrefix_append (d : Digest n) (rest : Bytes) : ofPrefix (d.bytes ++ rest) = d := by
  have hl : n ≤ (d.bytes ++ rest).length := by rw [List.length_append, d.length_eq]; omega
  exact ext ((bytes_ofPrefix hl).trans (List.take_left' d.length_eq))

end Digest

namespace Position

variable {p : Position} {b : Digest 74}

theorem length_encode (p : Position) : p.encode.length = 41 := by
  simp [encode, p.fingerprint.length_eq, p.chainCode.length_eq]

theorem child_encoded (child : UInt32) :
    UInt32.ofNat (Bytes.toNatBE (Bytes.ofNatBE 4 child.toNat)) = child := by
  rw [Bytes.toNatBE_ofNatBE_of_lt child.toNat_lt, UInt32.ofNat_toNat]

theorem encoded_child {w : Bytes} (hw : w.length = 4) :
    Bytes.ofNatBE 4 (UInt32.ofNat (Bytes.toNatBE w)).toNat = w := by
  have hlt := Bytes.toNatBE_lt w
  rw [hw] at hlt
  rw [UInt32.toNat_ofNat_of_lt' hlt, ← hw, Bytes.ofNatBE_toNatBE]

theorem decode_of_append {tail : Bytes} (hb : b.bytes = p.encode ++ tail) : decode b = p := by
  have hchild : (Bytes.ofNatBE 4 p.child.toNat).length = 4 := Bytes.length_ofNatBE ..
  have hsplit : b.bytes = p.depth :: (p.fingerprint.bytes ++
      (Bytes.ofNatBE 4 p.child.toNat ++ (p.chainCode.bytes ++ tail))) := by
    rw [hb, encode, List.cons_append, List.append_assoc, List.append_assoc]
  have hfour : b.bytes.drop 5 = Bytes.ofNatBE 4 p.child.toNat ++ (p.chainCode.bytes ++ tail) := by
    rw [hsplit, List.drop_succ_cons, List.drop_left' p.fingerprint.length_eq]
  have hnine : b.bytes.drop 9 = p.chainCode.bytes ++ tail :=
    calc b.bytes.drop 9
      _ = (b.bytes.drop 5).drop 4 := by rw [List.drop_drop]
      _ = p.chainCode.bytes ++ tail := by rw [hfour, List.drop_left' hchild]
  rw [decode, hfour, hnine, List.take_left' hchild, child_encoded, Digest.ofPrefix_append, hsplit,
    List.drop_succ_cons, List.drop_zero, Digest.ofPrefix_append]
  rfl

theorem encode_decode (b : Digest 74) : (decode b).encode = b.bytes.take 41 := by
  have hl := b.length_eq
  cases hb : b.bytes with
  | nil => rw [hb] at hl; cases hl
  | cons x rest =>
    rw [hb, List.length_cons] at hl
    have hchild : ((rest.drop 4).take 4).length = 4 := by
      rw [List.length_take, List.length_drop]
      omega
    rw [encode, decode, hb]
    simp only [List.headD_cons, List.drop_succ_cons, List.drop_zero, List.take_succ_cons]
    rw [encoded_child hchild, Digest.bytes_ofPrefix (by omega),
      Digest.bytes_ofPrefix (by rw [List.length_drop]; omega), ← List.take_add, ← List.take_add]

end Position

theorem exists_mark (b : Digest 74) :
    ∃ mark, b.bytes[41]? = some mark ∧ b.bytes.drop 41 = mark :: b.bytes.drop 42 ∧
      (b.bytes.drop 42).length = 32 := by
  have hl : 41 < b.bytes.length := by rw [b.length_eq]; decide
  refine ⟨b.bytes[41], List.getElem?_eq_getElem hl, List.drop_eq_getElem_cons hl, ?_⟩
  rw [List.length_drop, b.length_eq]

theorem PrivateKey.ofBytes_eq_ok_iff {b : Bytes} {compressed : Bool} {k : PrivateKey} :
    ofBytes b compressed = .ok k ↔
      isSecret b = true ∧ k.secret.bytes = b ∧ k.valid = true ∧ k.compressed = compressed := by
  rw [ofBytes]
  rcases new.set_cases b compressed with ⟨hl, hs, he⟩ | ⟨hn, he⟩
  · rw [he]
    constructor
    · intro h
      cases h
      exact ⟨hs, rfl, rfl, rfl⟩
    · rintro ⟨-, hb, hv, hc⟩
      obtain ⟨secret, valid, form⟩ := k
      obtain rfl : secret = ⟨b, hl⟩ := Digest.ext hb
      rw [show valid = true from hv, show form = compressed from hc]
  · rw [he]
    constructor
    · intro h
      cases h
    · rintro ⟨hs, hb, -, -⟩
      exact absurd ⟨hb ▸ k.secret.length_eq, hs⟩ hn

namespace ExtendedPrivateKey

variable {x : ExtendedPrivateKey} {b : Digest 74}

theorem decode_eq_ok_iff : decode b = .ok x ↔
    b.bytes[41]? = some 0 ∧ PrivateKey.ofBytes (b.bytes.drop 42) true = .ok x.key ∧
      x.position = Position.decode b := by
  obtain ⟨mark, hmark, hdrop, -⟩ := exists_mark b
  obtain ⟨position, key⟩ := x
  rw [decode, hdrop, hmark, List.headD_cons, Option.some.injEq]
  by_cases h0 : mark = 0
  · rw [if_neg (not_not.mpr h0)]
    cases PrivateKey.ofBytes (b.bytes.drop 42) true with
    | error e => simp
    | ok k => simp [h0, eq_comm, and_comm]
  · simp [h0]

theorem exists_decode_iff : (∃ x, decode b = .ok x) ↔
    b.bytes[41]? = some 0 ∧ 0 < Bytes.toNatBE (b.bytes.drop 42) ∧
      Bytes.toNatBE (b.bytes.drop 42) < order := by
  obtain ⟨mark, -, -, hl⟩ := exists_mark b
  rw [← PrivateKey.isSecret_iff]
  constructor
  · rintro ⟨x, hx⟩
    obtain ⟨hmark, hk, -⟩ := decode_eq_ok_iff.mp hx
    exact ⟨hmark, (PrivateKey.ofBytes_eq_ok_iff.mp hk).1⟩
  · rintro ⟨hmark, hs⟩
    refine ⟨⟨Position.decode b, ⟨⟨b.bytes.drop 42, hl⟩, true, true⟩⟩, ?_⟩
    exact decode_eq_ok_iff.mpr ⟨hmark, PrivateKey.ofBytes_eq_ok_iff.mpr ⟨hs, rfl, rfl, rfl⟩, rfl⟩

theorem encode_of_decode (hx : decode b = .ok x) : x.encode = b := by
  obtain ⟨mark, hmark, hdrop, -⟩ := exists_mark b
  obtain ⟨h0, hk, hp⟩ := decode_eq_ok_iff.mp hx
  obtain ⟨-, hsecret, -, -⟩ := PrivateKey.ofBytes_eq_ok_iff.mp hk
  obtain rfl : mark = 0 := Option.some.inj (hmark.symm.trans h0)
  apply Digest.ext
  change x.position.encode ++ 0 :: x.key.secret.bytes = b.bytes
  rw [hp, Position.encode_decode, hsecret, ← hdrop, List.take_append_drop]

theorem decode_encode (hk : x.key.Usable) (hc : x.key.compressed = true) :
    decode x.encode = .ok x := by
  have hb : x.encode.bytes = x.position.encode ++ 0 :: x.key.secret.bytes := rfl
  have hl := x.position.length_encode
  have hmark : x.encode.bytes[41]? = some 0 := by
    rw [hb, List.getElem?_append_right (by rw [hl]), hl]
    rfl
  have hsecret : x.encode.bytes.drop 42 = x.key.secret.bytes := by
    rw [hb, ← List.drop_drop (i := 1) (j := 41), List.drop_left' hl]
    rfl
  refine decode_eq_ok_iff.mpr ⟨hmark, ?_, (Position.decode_of_append hb).symm⟩
  exact PrivateKey.ofBytes_eq_ok_iff.mpr ⟨hsecret ▸ hk.isSecret, hsecret.symm, hk.valid, hc⟩

end ExtendedPrivateKey

namespace PublicKey

variable {k : PublicKey} {b : Bytes}

/-- The compressed keys are the byte strings of their length with one of two headers. -/
theorem isCompressed_iff : k.isCompressed = true ↔
    ∃ header rest, k.bytes = header :: rest ∧ (header = 2 ∨ header = 3) := by
  have hl := k.length_eq
  rw [isCompressed, beq_iff_eq, hl]
  cases hb : k.bytes with
  | nil => simp [announcedLength]
  | cons header rest =>
    simp only [announcedLength, encodedLength, List.cons.injEq]
    grind

theorem bytes_ofBytes {header : UInt8} {rest : Bytes} (hl : rest.length = 32)
    (hh : header = 2 ∨ header = 3) : (ofBytes (header :: rest)).bytes = header :: rest := by
  have hlength : (header :: rest).length = announcedLength (header :: rest) := by
    rw [announcedLength, encodedLength, if_pos hh, List.length_cons, hl]
  rw [ofBytes, dif_pos hlength]

theorem isCompressed_ofBytes_iff {header : UInt8} {rest : Bytes} (hl : rest.length = 32) :
    (ofBytes (header :: rest)).isCompressed = true ↔ header = 2 ∨ header = 3 := by
  rw [isCompressed_iff]
  constructor
  · rintro ⟨header', rest', hb, hh⟩
    rw [ofBytes] at hb
    split at hb
    · exact (List.cons.inj hb).1 ▸ hh
    · cases hb
  · exact fun hh ↦ ⟨header, rest, bytes_ofBytes hl hh, hh⟩

theorem isCompressed_of_derive {k' : PublicKey} {child : UInt32} {code code' : ChainCode}
    (h : k.derive child code = some (k', code')) : k'.isCompressed = true := by
  rw [derive] at h
  generalize childHash code child k.bytes = out at h
  dsimp only at h
  split at h
  · cases h
  split at h
  next ht =>
    split at h
    · cases h
    next p hp =>
      obtain rfl : ofPoint true p = k' := congrArg Prod.fst (Option.some.inj h)
      obtain ⟨q, -, hq⟩ := Option.bind_eq_some_iff.mp hp
      rw [addTweak?_eq] at hq
      split at hq
      · cases hq
      next hne =>
        rw [Option.some.inj hq] at hne
        exact isCompressed_ofPoint true hne
  next => cases h

end PublicKey

namespace ExtendedPublicKey

variable {y : ExtendedPublicKey} {b : Digest 74}

theorem new_eq_ok_iff {position : Position} {key : PublicKey} :
    new position key = .ok y ↔ key.isCompressed = true ∧ y = ⟨position, key⟩ := by
  rw [new]
  split
  next hc => exact ⟨fun h ↦ ⟨hc, (Except.ok.inj h).symm⟩, fun h ↦ h.2 ▸ rfl⟩
  next hc => exact ⟨fun h ↦ (by cases h), fun h ↦ absurd h.1 hc⟩

theorem exists_decode_iff :
    (∃ y, decode b = .ok y) ↔ b.bytes[41]? = some 2 ∨ b.bytes[41]? = some 3 := by
  obtain ⟨mark, hmark, hdrop, hl⟩ := exists_mark b
  rw [decode, hdrop, hmark, Option.some.injEq, Option.some.injEq,
    ← PublicKey.isCompressed_ofBytes_iff hl]
  exact ⟨fun ⟨y, hy⟩ ↦ (new_eq_ok_iff.mp hy).1, fun hc ↦ ⟨_, new_eq_ok_iff.mpr ⟨hc, rfl⟩⟩⟩

theorem encode?_of_decode (hy : decode b = .ok y) : y.encode? = some b := by
  obtain ⟨mark, -, hdrop, hl⟩ := exists_mark b
  rw [decode, hdrop] at hy
  obtain ⟨hc, rfl⟩ := new_eq_ok_iff.mp hy
  have hbytes : (Position.decode b).encode ++ mark :: b.bytes.drop 42 = b.bytes := by
    rw [Position.encode_decode, ← hdrop, List.take_append_drop]
  rw [encode?, PublicKey.bytes_ofBytes hl ((PublicKey.isCompressed_ofBytes_iff hl).mp hc), hbytes,
    Digest.ofBytes?, dif_pos b.length_eq]

theorem exists_encode? (hc : y.key.isCompressed = true) :
    ∃ b, y.encode? = some b ∧ decode b = .ok y := by
  obtain ⟨header, rest, hkey, hh⟩ := PublicKey.isCompressed_iff.mp hc
  have hkl : y.key.bytes.length = 33 := beq_iff_eq.mp hc
  have hl : (y.position.encode ++ y.key.bytes).length = 74 := by
    rw [List.length_append, y.position.length_encode, hkl]
  refine ⟨⟨_, hl⟩, dif_pos hl, ?_⟩
  have hof : PublicKey.ofBytes y.key.bytes = y.key := dif_pos y.key.length_eq
  rw [decode, Position.decode_of_append rfl, List.drop_left' y.position.length_encode, hof]
  exact new_eq_ok_iff.mpr ⟨hc, rfl⟩

theorem isCompressed_of_derive {child : UInt32} {y' : ExtendedPublicKey}
    (h : y.derive child = some y') : y'.key.isCompressed = true := by
  rw [derive] at h
  split at h
  · cases h
  next hd =>
    obtain ⟨position, -, rfl⟩ := Option.map_eq_some_iff.mp h
    exact PublicKey.isCompressed_of_derive hd

/-- Above the greatest depth there is a child as soon as there is one of the key. -/
theorem exists_derive {child : UInt32} {r : PublicKey × ChainCode}
    (hd : y.key.derive child y.position.chainCode = some r) (hp : y.position.depth ≠ 255) :
    ∃ z, y.derive child = some z := by
  rw [derive, hd]
  dsimp only
  rw [Position.below?, if_neg hp]
  exact ⟨_, rfl⟩

inductive Reachable : ExtendedPublicKey → Prop
  | new {position : Position} {key : PublicKey} {y : ExtendedPublicKey}
      (h : new position key = .ok y) : Reachable y
  | decode {b : Digest 74} {y : ExtendedPublicKey} (h : decode b = .ok y) : Reachable y
  | neuter {x : ExtendedPrivateKey} {y : ExtendedPublicKey} (h : x.neuter = .ok y) : Reachable y
  | derive {y y' : ExtendedPublicKey} {child : UInt32} (hy : Reachable y)
      (h : y.derive child = some y') : Reachable y'

theorem Reachable.isCompressed (hy : y.Reachable) : y.key.isCompressed = true := by
  induction hy with
  | new h =>
    obtain ⟨hc, rfl⟩ := new_eq_ok_iff.mp h
    exact hc
  | decode h =>
    obtain ⟨hc, rfl⟩ := new_eq_ok_iff.mp h
    exact hc
  | neuter h =>
    obtain ⟨hk, rfl⟩ := ExtendedPrivateKey.neuter_eq_ok_iff.mp h
    exact PublicKey.isCompressed_ofPoint true (secretPoint_ne_infinity hk.isSecret)
  | derive _ h _ => exact isCompressed_of_derive h

end ExtendedPublicKey

/-- Bytes are an extended key exactly if the byte behind the position is that of a private key and
a secret follows, or that of a compressed public key.  Either way they are the encoding of the key,
and every valid compressed key and every public one that can be made has an encoding that is read as
this key again. -/
theorem extendedKeys_exact :
    (∀ b : Digest 74,
      ((∃ x, ExtendedPrivateKey.decode b = .ok x) ↔ b.bytes[41]? = some 0 ∧
        0 < Bytes.toNatBE (b.bytes.drop 42) ∧ Bytes.toNatBE (b.bytes.drop 42) < order) ∧
      ((∃ y, ExtendedPublicKey.decode b = .ok y) ↔
        b.bytes[41]? = some 2 ∨ b.bytes[41]? = some 3) ∧
      (∀ x, ExtendedPrivateKey.decode b = .ok x → x.encode = b) ∧
      (∀ y, ExtendedPublicKey.decode b = .ok y → y.encode? = some b) ∧
      ¬((∃ x, ExtendedPrivateKey.decode b = .ok x) ∧ ∃ y, ExtendedPublicKey.decode b = .ok y)) ∧
    (∀ x : ExtendedPrivateKey, x.key.Reachable → x.key.valid = true → x.key.compressed = true →
      ExtendedPrivateKey.decode x.encode = .ok x) ∧
    ∀ y : ExtendedPublicKey, y.Reachable →
      ∃ b, y.encode? = some b ∧ ExtendedPublicKey.decode b = .ok y := by
  refine ⟨fun b ↦ ⟨ExtendedPrivateKey.exists_decode_iff, ExtendedPublicKey.exists_decode_iff,
    fun _ ↦ ExtendedPrivateKey.encode_of_decode, fun _ ↦ ExtendedPublicKey.encode?_of_decode, ?_⟩,
    fun x hx hv hc ↦ ExtendedPrivateKey.decode_encode (hx.intact.usable hv) hc,
    fun y hy ↦ ExtendedPublicKey.exists_encode? hy.isCompressed⟩
  rw [ExtendedPrivateKey.exists_decode_iff, ExtendedPublicKey.exists_decode_iff]
  rintro ⟨⟨h0, -⟩, hmark⟩
  rw [h0] at hmark
  revert hmark
  decide

def unitHeir : ExtendedPrivateKey :=
  ⟨⟨254, Digest.ofNatBE 9, 5, Digest.ofNatBE 7⟩, ⟨Digest.ofNatBE 1, true, true⟩⟩

theorem extendedKeys_exact_heir :
    (unitHeir.key.Reachable ∧ unitHeir.key.valid = true ∧ unitHeir.key.compressed = true ∧
      ExtendedPrivateKey.decode unitHeir.encode = .ok unitHeir) ∧
    ∃ y z, unitHeir.neuter = .ok y ∧ y.derive 7 = some z ∧ z.Reachable ∧
      ∃ b, z.encode? = some b ∧ ExtendedPublicKey.decode b = .ok z := by
  obtain ⟨-, hprivate, hpublic⟩ := extendedKeys_exact
  have hs : PrivateKey.isSecret unitHeir.key.secret.bytes = true := by decide +kernel
  have hx : unitHeir.key.Reachable :=
    .ofBytes (PrivateKey.ofBytes_eq_ok_iff.mpr ⟨hs, rfl, rfl, rfl⟩)
  have hy := ExtendedPrivateKey.neuter_eq_ok_iff.mpr ⟨⟨rfl, hs⟩, rfl⟩
  -- whether the child exists is found out with the secret, where no square root is needed
  have hsome : (PrivateKey.tweak? unitHeir.key.secret (leftHalf (childHash
      unitHeir.position.chainCode 7 ((secretPoint unitHeir.key.secret).encode true)))).isSome =
      true := by decide +kernel
  obtain ⟨s, htweak⟩ := Option.isSome_iff_exists.mp hsome
  have hchild : (7 : UInt32) < hardenedChild := by decide
  have hd := PrivateKey.derive_ofPoint hchild unitHeir.position.chainCode hs
  dsimp only at hd
  rw [htweak, Option.map_some] at hd
  obtain ⟨z, hz⟩ := ExtendedPublicKey.exists_derive (y := ⟨unitHeir.position, _⟩) hd (by decide)
  have hr : z.Reachable := .derive (.neuter hy) hz
  exact ⟨⟨hx, rfl, rfl, hprivate _ hx rfl rfl⟩, _, z, hy, hz, hr, hpublic z hr⟩

end ChainAnchor
