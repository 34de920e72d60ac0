import ChainAnchor.Codec.Sequence
import ChainAnchor.Proofs.Bytes

namespace ChainAnchor

theorem Digest.ofPrefix_bytes {n : Nat} (d : Digest n) : Digest.ofPrefix d.bytes = d := by
  apply Digest.ext
  simp [Digest.ofPrefix, d.length_eq, List.take_of_length_le (Nat.le_of_eq d.length_eq)]

theorem Reader.take_append {n : Nat} {b : Bytes} (hb : b.length = n) (rest : Bytes) (k : Nat) :
    take n ⟨b ++ rest, k⟩ = .ok (b, ⟨rest, k⟩) := by
  simp [take, List.take_left' hb, List.drop_left' hb, hb]

theorem IntWidth.values_eq (w : IntWidth) : w.values = 256 ^ w.size := by
  cases w <;> rfl

namespace Packed

variable {n : Nat} {w : IntWidth} {signed : Bool}

theorem decode_byte (hn : n < 251) (rest : Bytes) (k : Nat) :
    decode signed w ⟨UInt8.ofNat n :: rest, k⟩ = .ok (n, ⟨rest, k⟩) := by
  have hx : (UInt8.ofNat n).toNat = n := by
    rw [UInt8.toNat_ofNat']
    omega
  have hlt : UInt8.ofNat n < 251 := by
    rw [UInt8.lt_iff_toNat_lt, hx]
    exact hn
  simp [decode, Decoder.andThen, Reader.byte, Decoder.pure, hlt, hx]

/-- A marker announces a word that is no wider than expected. -/
theorem decode_word (found : IntWidth) {marker : UInt8} (hm : width? marker = some found)
    (hge : ¬ marker < 251) (hle : found.size ≤ w.size) (hn : n < found.values) (rest : Bytes)
    (k : Nat) :
    decode signed w ⟨marker :: Bytes.ofNatLE found.size n ++ rest, k⟩ = .ok (n, ⟨rest, k⟩) := by
  have ht := Reader.take_append (Bytes.length_ofNatLE found.size n) rest k
  have hv : Bytes.toNatLE (Bytes.ofNatLE found.size n) = n := by
    rw [Bytes.toNatLE_ofNatLE, ← found.values_eq, Nat.mod_eq_of_lt hn]
  simp only [decode, Decoder.andThen, Reader.byte, List.cons_append, if_neg hge, hm, if_pos hle,
    Decoder.map, ht, hv]

theorem decode_encode (hw : n < w.values) (hn : n < IntWidth.w64.values) (rest : Bytes)
    (k : Nat) : decode signed w ⟨encode n ++ rest, k⟩ = .ok (n, ⟨rest, k⟩) := by
  rw [encode]
  split
  next h => exact decode_byte h rest k
  next =>
    split
    next h => exact decode_word .w16 rfl (by decide) (by cases w <;> decide) h rest k
    next h₁ =>
      split
      next h =>
        refine decode_word .w32 rfl (by decide) ?_ h rest k
        cases w with
        | w16 => exact absurd hw h₁
        | _ => decide
      next h₂ =>
        refine decode_word .w64 rfl (by decide) ?_ hn rest k
        cases w with
        | w16 => exact absurd hw h₁
        | w32 => exact absurd hw h₂
        | _ => decide

end Packed

theorem Utf8.decode_encode (s : String) : Utf8.decode (Utf8.encode s) = .ok s := by
  have hb : (⟨(Utf8.encode s).toArray⟩ : ByteArray) = s.toByteArray := by
    rw [Utf8.encode, Array.toArray_toList]
    rfl
  have hs : String.fromUTF8? s.toByteArray = some s := dif_pos s.isValidUTF8
  rw [Utf8.decode, hb, hs]

namespace Decoder

variable {α β : Type} {d : Decoder α} {e e' : Bytes} {a : α} {b : β} {n m : Nat}

theorem claiming_eq (n : Nat) (d : Decoder α) (b : Bytes) (k : Nat) :
    d.claiming n ⟨b, k⟩ = if n ≤ k then d ⟨b, k - n⟩ else .error .limitExceeded := by
  rw [claiming, Reader.claim]
  by_cases hk : n ≤ k
  · rw [if_pos hk, if_pos hk]
  · rw [if_neg hk, if_neg hk]

/-- Reads a value from its encoding, whatever follows, for a price that the budget has to cover. -/
def Reads (d : Decoder α) (e : Bytes) (a : α) (price : Nat) : Prop := ∀ rest k,
  d ⟨e ++ rest, k⟩ =
    if price ≤ k then .ok (a, ⟨rest, k - price⟩) else .error .limitExceeded

theorem reads_pure (a : α) : (pure a).Reads [] a 0 := fun _ _ ↦ rfl

theorem reads_byte (x : UInt8) : Reads Reader.byte [x] x 0 := fun _ _ ↦ rfl

theorem reads_take (he : e.length = n) : Reads (Reader.take n) e e 0 :=
  fun rest k ↦ Reader.take_append he rest k

theorem Reads.map (hd : d.Reads e a n) (f : α → β) : (d.map f).Reads e (f a) n := by
  intro rest k
  rw [Decoder.map, hd]
  by_cases hk : n ≤ k
  · rw [if_pos hk, if_pos hk]
  · rw [if_neg hk, if_neg hk]

theorem Reads.andThen {f : α → Decoder β} (hd : d.Reads e a n) (hf : (f a).Reads e' b m) :
    (d.andThen f).Reads (e ++ e') b (n + m) := by
  intro rest k
  rw [Decoder.andThen, List.append_assoc, hd]
  by_cases hn : n ≤ k
  · simp only [if_pos hn, hf rest, Nat.le_sub_iff_add_le' hn, Nat.sub_add_eq]
  · rw [if_neg hn, if_neg (by omega)]

theorem Reads.andThen_pure {f : α → Decoder β} (hd : d.Reads e a n) (hf : f a = pure b) :
    (d.andThen f).Reads e b n := by
  have hp : (d.andThen f).Reads (e ++ []) b (n + 0) := hd.andThen (hf ▸ reads_pure b)
  rwa [List.append_nil] at hp

theorem Reads.claiming (hd : d.Reads e a n) (m : Nat) : (d.claiming m).Reads e a (m + n) := by
  intro rest k
  rw [claiming_eq]
  by_cases hm : m ≤ k
  · simp only [if_pos hm, hd rest, Nat.le_sub_iff_add_le' hm, Nat.sub_add_eq]
  · rw [if_neg hm, if_neg (by omega)]

theorem Reads.releasing (hd : d.Reads e a (m + n)) : (d.releasing m).Reads e a n := by
  intro rest k
  have hk := hd rest (k + m)
  simp only [Nat.add_comm k m, Nat.add_le_add_iff_left, Nat.add_sub_add_left] at hk
  rw [Decoder.releasing, Reader.release, Nat.add_comm]
  exact hk

theorem reads_width (f : Bytes → α) (he : e.length = n) :
    (((Reader.take n).map f).claiming n).Reads e (f e) n :=
  ((reads_take he).map f).claiming n

end Decoder

namespace Codec

variable {α β : Type} {c : Codec α} {a : α} {size n m : Nat} {f : Format}

def Restores (c : Codec α) (f : Format) (a : α) (size : Nat) : Prop :=
  (c.decode f).Reads (c.encode f a) a size

theorem Restores.load_append (hc : c.Restores .storage a size) (rest : Bytes) :
    c.load (c.store a ++ rest) =
      if size ≤ Format.storage.limit then .ok a else .error .limitExceeded := by
  rw [load, store, hc rest Format.storage.limit]
  by_cases hs : size ≤ Format.storage.limit
  · simp only [if_pos hs]
  · simp only [if_neg hs]

theorem Restores.load_store (hc : c.Restores .storage a size) (hs : size ≤ Format.storage.limit) :
    c.load (c.store a) = .ok a := by
  have hl := hc.load_append []
  rwa [List.append_nil, if_pos hs] at hl

theorem restores_natural {w : IntWidth} {n : Nat} (hw : n < w.values)
    (hn : n < IntWidth.w64.values) (f : Format) : (natural w).Restores f n w.size := by
  cases f with
  | storage =>
    have hd : (Packed.decode false w).Reads (Packed.encode n) n 0 :=
      fun rest k ↦ Packed.decode_encode hw hn rest k
    exact hd.claiming w.size
  | wire =>
    have hd := Decoder.reads_width Bytes.toNatLE (Bytes.length_ofNatLE w.size n)
    rwa [Bytes.toNatLE_ofNatLE, ← w.values_eq, Nat.mod_eq_of_lt hw] at hd

theorem restores_digest {n : Nat} (d : Digest n) (f : Format) : (digest n).Restores f d n := by
  have hd := Decoder.reads_width (Digest.ofPrefix (n := n)) d.length_eq
  rwa [d.ofPrefix_bytes] at hd

theorem load_store_digest (h : Hash) : (digest 32).load ((digest 32).store h) = .ok h :=
  (restores_digest h .storage).load_store (by decide)

theorem restores_bytes {b : Bytes} (hb : b.length < IntWidth.w64.values) (f : Format) :
    bytes.Restores f b (8 + b.length) :=
  Decoder.Reads.andThen (restores_natural hb hb f) ((Decoder.reads_take rfl).claiming b.length)

theorem restores_text {s : String} (hs : (Utf8.encode s).length < IntWidth.w64.values)
    (f : Format) : text.Restores f s (8 + (Utf8.encode s).length) := by
  refine Decoder.Reads.andThen_pure (restores_bytes hs f) ?_
  rw [Utf8.decode_encode]

theorem restores_uint8 (x : UInt8) (f : Format) : uint8.Restores f x 1 :=
  (Decoder.reads_byte x).claiming 1

theorem restores_boolean (x : Bool) (f : Format) : boolean.Restores f x 1 := by
  refine Decoder.Reads.andThen_pure (restores_uint8 (if x then 1 else 0) f) ?_
  cases x <;> rfl

theorem restores_none (c : Codec α) (f : Format) : (optional c).Restores f none 1 :=
  Decoder.Reads.andThen_pure (restores_uint8 0 f) rfl

theorem Restores.some (hc : c.Restores f a n) : (optional c).Restores f (some a) (1 + n) :=
  Decoder.Reads.andThen (restores_uint8 1 f) (Decoder.Reads.map hc Option.some)

theorem Restores.via {there : β → α} {back : α → β} {x : β} (hc : c.Restores f (there x) n)
    (hx : back (there x) = x) : (c.via there back).Restores f x n := by
  have hr := Decoder.Reads.map hc back
  rw [hx] at hr
  exact hr

theorem reads_pair {d : Codec β} {e e' : Bytes} {x : α} {y : β}
    (hx : (c.decode f).Reads e x n) (hy : (d.decode f).Reads e' y m) :
    ((c.pair d).decode f).Reads (e ++ e') (x, y) (n + m) :=
  Decoder.Reads.andThen hx (hy.map fun y ↦ (x, y))

theorem reads_replicate (hc : ∀ a, c.Restores f a size) (l : List α) :
    (((c.decode f).releasing size).replicate l.length).Reads (l.flatMap (c.encode f)) l 0 := by
  induction l with
  | nil => exact Decoder.reads_pure []
  | cons a l ih =>
    have hr : ((c.decode f).releasing size).Reads (c.encode f a) a 0 :=
      Decoder.Reads.releasing (hc a)
    exact Decoder.Reads.andThen (m := 0) hr (ih.map (a :: ·))

theorem restores_list (hc : ∀ a, c.Restores f a size) {l : List α}
    (hl : l.length < IntWidth.w64.values) :
    (list size c).Restores f l (8 + l.length * size) :=
  Decoder.Reads.andThen (restores_natural (w := .w64) hl hl f)
    ((reads_replicate hc l).claiming (l.length * size))

end Codec

end ChainAnchor
