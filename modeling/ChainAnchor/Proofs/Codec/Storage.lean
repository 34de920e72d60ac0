import ChainAnchor.Proofs.Codec.Packed

namespace ChainAnchor.Codec

variable {α : Type} {c : Codec α} {w : IntWidth} {number : α → Nat}

def Loads (c : Codec α) (covers : α → Prop) : Prop := ∀ a, covers a → ∀ rest,
  c.load (c.store a ++ rest) =
    if (c.toWire a).length ≤ Format.storage.limit then .ok a else .error .limitExceeded

theorem loads_of_restores {covers : α → Prop}
    (hc : ∀ a, covers a → c.Restores .storage a (c.toWire a).length) : c.Loads covers :=
  fun a ha rest ↦ (hc a ha).load_append rest

/-- Every value is stored in the shortest form of its number, and no fewer bytes are read as it. -/
structure Packs (c : Codec α) (number : α → Nat) : Prop where
  isShortest : ∀ a, Packed.IsShortest (number a) (c.store a)
  length_le : ∀ ⦃a b⦄, c.load b = .ok a → (c.store a).length ≤ b.length

theorem packs_of_decode (hstore : ∀ a, c.store a = Packed.encode (number a))
    (hlt : ∀ a, number a < IntWidth.w64.values)
    (hform : ∀ ⦃b k a r⦄, c.decode .storage ⟨b, k⟩ = .ok (a, r) →
      ∃ f : Packed.Form, number a < f.room ∧ b = f.write (number a) ++ r.rest) :
    c.Packs number := by
  have hshortest (a : α) : Packed.IsShortest (number a) (c.store a) := by
    rw [hstore]
    exact Packed.isShortest_encode (hlt a)
  refine ⟨hshortest, ?_⟩
  intro a b hb
  rw [load] at hb
  split at hb
  · cases hb
  next a' r hd =>
    cases hb
    obtain ⟨f, hf, rfl⟩ := hform hd
    obtain ⟨-, -, -, hle⟩ := hshortest a
    have hl := hle f hf
    rw [List.length_append]
    omega

section Unsigned

variable {there : α → Nat} {back : Nat → α} (hw : w.values ≤ IntWidth.w64.values)
  (hlt : ∀ x, there x < w.values)
include hw hlt

theorem loads_natural (hback : ∀ x, back (there x) = x) :
    ((natural w).via there back).Loads fun _ ↦ True := by
  apply loads_of_restores
  intro x _
  have hlength : (((natural w).via there back).toWire x).length = w.size :=
    Bytes.length_ofNatLE w.size (there x)
  rw [hlength]
  exact (restores_natural (hlt x) (Nat.lt_of_lt_of_le (hlt x) hw) .storage).via (hback x)

theorem packs_natural (hback : ∀ n < w.values, there (back n) = n) :
    ((natural w).via there back).Packs there := by
  refine packs_of_decode (fun _ ↦ rfl) (fun x ↦ Nat.lt_of_lt_of_le (hlt x) hw) ?_
  intro b k x r hx
  obtain ⟨n, hn, rfl⟩ := Decoder.map_eq_ok hx
  obtain ⟨hlt, hform⟩ := Packed.exists_form_of_decode (Decoder.claiming_eq_ok hn)
  rwa [hback n hlt]

end Unsigned

theorem restores_integer (hw : w.values ≤ IntWidth.w64.values) {i : Int} (hi : IsSigned w i) :
    (integer w).Restores .storage i w.size := by
  have hlt := Packed.fold_lt_iff.mpr hi
  have hd : (Packed.decode true w).Reads (Packed.encode (Packed.fold i)) (Packed.fold i) 0 :=
    fun rest k ↦ Packed.decode_encode hlt (Nat.lt_of_lt_of_le hlt hw) rest k
  have hu := hd.map Packed.unfold
  rw [Packed.unfold_fold] at hu
  exact hu.claiming w.size

section Signed

variable {there : α → Int} {back : Int → α} (hw : w.values ≤ IntWidth.w64.values)
  (hs : ∀ x, IsSigned w (there x))
include hw hs

theorem loads_integer (hback : ∀ x, back (there x) = x) :
    ((integer w).via there back).Loads fun _ ↦ True := by
  apply loads_of_restores
  intro x _
  have hlength : (((integer w).via there back).toWire x).length = w.size :=
    Bytes.length_ofNatLE w.size (there x % w.values).toNat
  rw [hlength]
  exact (restores_integer hw (hs x)).via (hback x)

theorem packs_integer (hback : ∀ i, IsSigned w i → there (back i) = i) :
    ((integer w).via there back).Packs fun x ↦ Packed.fold (there x) := by
  refine packs_of_decode (fun _ ↦ rfl)
    (fun x ↦ Nat.lt_of_lt_of_le (Packed.fold_lt_iff.mpr (hs x)) hw) ?_
  intro b k x r hx
  obtain ⟨i, hi, rfl⟩ := Decoder.map_eq_ok hx
  obtain ⟨n, hn, rfl⟩ := Decoder.map_eq_ok (Decoder.claiming_eq_ok hi)
  obtain ⟨hlt, hform⟩ := Packed.exists_form_of_decode hn
  have hfold := Packed.fold_unfold n
  rw [← hfold] at hlt
  rwa [hback _ (Packed.fold_lt_iff.mp hlt), hfold]

end Signed

theorem loads_uint8 : uint8.Loads fun _ ↦ True :=
  loads_of_restores fun x _ ↦ restores_uint8 x .storage

theorem loads_int8 : int8.Loads fun _ ↦ True :=
  loads_of_restores fun x _ ↦ (restores_uint8 x.toUInt8 .storage).via x.toInt8_toUInt8

theorem loads_boolean : boolean.Loads fun _ ↦ True :=
  loads_of_restores fun x _ ↦ restores_boolean x .storage

theorem loads_digest (n : Nat) : (digest n).Loads fun _ ↦ True := by
  apply loads_of_restores
  intro d _
  have hlength : ((digest n).toWire d).length = n := d.length_eq
  rw [hlength]
  exact restores_digest d .storage

theorem loads_bytes : bytes.Loads (·.length < UInt64.size) := by
  apply loads_of_restores
  intro b hb
  rw [length_toWire_bytes]
  exact restores_bytes hb .storage

theorem loads_text : text.Loads fun s ↦ (Utf8.encode s).length < UInt64.size := by
  apply loads_of_restores
  intro s hs
  have hr := restores_text hs .storage
  rwa [← length_toWire_bytes] at hr

theorem restores_uint32 (x : UInt32) : uint32.Restores .storage x 4 :=
  (restores_natural (w := .w32) x.toNat_lt (Nat.lt_trans x.toNat_lt (by decide)) .storage).via
    UInt32.ofNat_toNat

theorem loads_uint32s : (list 4 uint32).Loads (·.length < UInt64.size) := by
  apply loads_of_restores
  intro l hl
  have hsize (x : UInt32) : (uint32.toWire x).length = 4 := Bytes.length_ofNatLE 4 x.toNat
  rw [length_toWire_list hsize]
  exact restores_list restores_uint32 hl

theorem loads_optional : (optional uint32).Loads fun _ ↦ True := by
  apply loads_of_restores
  intro x _
  cases x with
  | none => exact restores_none uint32 .storage
  | some x => exact (restores_uint32 x).some

theorem loads_notice : Notice.codec.Loads fun _ ↦ True := by
  apply loads_of_restores
  intro n _
  have hv : int32.Restores .storage n.version 4 :=
    (restores_integer (w := .w32) (by decide) ⟨n.version.le_toInt, n.version.toInt_lt⟩).via
      n.version.ofInt_toInt
  rw [length_toWire_notice]
  exact Restores.via (reads_pair hv (restores_digest n.block .storage)) rfl

/-- What the payload says is not stored, so it has to be what is assumed of an unread one. -/
theorem loads_checkpoint : Checkpoint.codec.Loads fun c ↦
    c.notice = default ∧ c.payload.length < UInt64.size ∧ c.signature.length < UInt64.size := by
  apply loads_of_restores
  rintro c ⟨hn, hp, hs⟩
  have hlength : (Checkpoint.codec.toWire c).length =
      (8 + c.payload.length) + (8 + c.signature.length) := by
    rw [← length_toWire_bytes, ← length_toWire_bytes]
    exact List.length_append
  rw [hlength]
  refine Restores.via (reads_pair (restores_bytes hp .storage) (restores_bytes hs .storage)) ?_
  rw [Checkpoint.ofParts, ← hn]

/-- Every type of stored value comes back, as long as lengths are words and a checkpoint is one that
was not read yet.  Integers of more than a byte are packed as far as the forms allow. -/
theorem storage_exact :
    uint8.Loads (fun _ ↦ True) ∧ uint16.Loads (fun _ ↦ True) ∧ uint32.Loads (fun _ ↦ True) ∧
    uint64.Loads (fun _ ↦ True) ∧ int8.Loads (fun _ ↦ True) ∧ int16.Loads (fun _ ↦ True) ∧
    int32.Loads (fun _ ↦ True) ∧ int64.Loads (fun _ ↦ True) ∧ boolean.Loads (fun _ ↦ True) ∧
    text.Loads (fun s ↦ (Utf8.encode s).length < UInt64.size) ∧
    bytes.Loads (fun b ↦ b.length < UInt64.size) ∧
    (list 4 uint32).Loads (fun l ↦ l.length < UInt64.size) ∧
    (optional uint32).Loads (fun _ ↦ True) ∧ (digest 20).Loads (fun _ ↦ True) ∧
    (digest 32).Loads (fun _ ↦ True) ∧ Notice.codec.Loads (fun _ ↦ True) ∧
    Checkpoint.codec.Loads (fun c ↦ c.notice = default ∧ c.payload.length < UInt64.size ∧
      c.signature.length < UInt64.size) ∧
    uint16.Packs UInt16.toNat ∧ uint32.Packs UInt32.toNat ∧ uint64.Packs UInt64.toNat ∧
    int16.Packs (fun x ↦ Packed.fold x.toInt) ∧ int32.Packs (fun x ↦ Packed.fold x.toInt) ∧
    int64.Packs (fun x ↦ Packed.fold x.toInt) := by
  have h16 (x : UInt16) : x.toNat < IntWidth.w16.values := x.toNat_lt
  have h32 (x : UInt32) : x.toNat < IntWidth.w32.values := x.toNat_lt
  have h64 (x : UInt64) : x.toNat < IntWidth.w64.values := x.toNat_lt
  have s16 (x : Int16) : IsSigned .w16 x.toInt := ⟨x.le_toInt, x.toInt_lt⟩
  have s32 (x : Int32) : IsSigned .w32 x.toInt := ⟨x.le_toInt, x.toInt_lt⟩
  have s64 (x : Int64) : IsSigned .w64 x.toInt := ⟨x.le_toInt, x.toInt_lt⟩
  exact ⟨loads_uint8, loads_natural (by decide) h16 fun _ ↦ UInt16.ofNat_toNat,
    loads_natural (by decide) h32 fun _ ↦ UInt32.ofNat_toNat,
    loads_natural (by decide) h64 fun _ ↦ UInt64.ofNat_toNat, loads_int8,
    loads_integer (by decide) s16 Int16.ofInt_toInt,
    loads_integer (by decide) s32 Int32.ofInt_toInt,
    loads_integer (by decide) s64 Int64.ofInt_toInt, loads_boolean, loads_text, loads_bytes,
    loads_uint32s, loads_optional, loads_digest 20, loads_digest 32, loads_notice, loads_checkpoint,
    packs_natural (by decide) h16 fun _ hn ↦ UInt16.toNat_ofNat_of_lt' hn,
    packs_natural (by decide) h32 fun _ hn ↦ UInt32.toNat_ofNat_of_lt' hn,
    packs_natural (by decide) h64 fun _ hn ↦ UInt64.toNat_ofNat_of_lt' hn,
    packs_integer (by decide) s16 fun _ hi ↦ Int16.toInt_ofInt_of_le hi.1 hi.2,
    packs_integer (by decide) s32 fun _ hi ↦ Int32.toInt_ofInt_of_le hi.1 hi.2,
    packs_integer (by decide) s64 fun _ hi ↦ Int64.toInt_ofInt_of_le hi.1 hi.2⟩

/-- The longest byte strings that are read from storage have eight bytes less than the limit. -/
theorem storage_exact_limit :
    bytes.load (bytes.store (List.replicate 999992 7) ++ [1, 2]) = .ok (List.replicate 999992 7) ∧
      bytes.load (bytes.store (List.replicate 999993 7) ++ [1, 2]) = .error .limitExceeded := by
  obtain ⟨-, -, -, -, -, -, -, -, -, -, hbytes, -⟩ := storage_exact
  have hlt {n : Nat} (hn : n < UInt64.size) :
      (List.replicate n (7 : UInt8)).length < UInt64.size := by
    rwa [List.length_replicate]
  have hshort := hbytes (List.replicate 999992 7) (hlt (by decide)) [1, 2]
  have hlong := hbytes (List.replicate 999993 7) (hlt (by decide)) [1, 2]
  rw [length_toWire_bytes, List.length_replicate] at hshort hlong
  rw [if_pos (by decide)] at hshort
  rw [if_neg (by decide)] at hlong
  exact ⟨hshort, hlong⟩

end ChainAnchor.Codec
