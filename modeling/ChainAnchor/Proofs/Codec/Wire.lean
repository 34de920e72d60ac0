import ChainAnchor.Checkpoint
import ChainAnchor.Proofs.Codec.Restores

namespace ChainAnchor

theorem Utf8.encode_of_decode {b : Bytes} {s : String} (hs : Utf8.decode b = .ok s) :
    Utf8.encode s = b := by
  rw [Utf8.decode] at hs
  split at hs
  next s' hb =>
    cases hs
    obtain ⟨hv, hs⟩ := Option.dite_none_right_eq_some.mp hb
    cases hs
    rfl
  next => cases hs

theorem Reader.take_eq_ok {n k : Nat} {b taken : Bytes} {r : Reader}
    (ht : take n ⟨b, k⟩ = .ok (taken, r)) : taken.length = n ∧ b = taken ++ r.rest := by
  rw [take] at ht
  dsimp only at ht
  split at ht
  · cases ht
  next hn =>
    cases ht
    refine ⟨?_, (List.take_append_drop n b).symm⟩
    have := List.length_take_le n b
    omega

theorem Reader.byte_eq : byte = (take 1).map (·.headD 0) := by
  funext ⟨b, k⟩
  cases b <;> rfl

namespace Decoder

variable {α β : Type} {d : Decoder α} {r r' : Reader}

theorem map_eq_ok {f : α → β} {b : β} (hd : d.map f r = .ok (b, r')) :
    ∃ a, d r = .ok (a, r') ∧ f a = b := by
  rw [map] at hd
  split at hd
  · cases hd
  next a r₁ ha =>
    cases hd
    exact ⟨a, ha, rfl⟩

theorem andThen_eq_ok {f : α → Decoder β} {b : β} (hd : d.andThen f r = .ok (b, r')) :
    ∃ a r₁, d r = .ok (a, r₁) ∧ f a r₁ = .ok (b, r') := by
  rw [andThen] at hd
  split at hd
  · cases hd
  next a r₁ ha => exact ⟨a, r₁, ha, hd⟩

theorem claiming_eq_ok {n k : Nat} {b : Bytes} {a : α} (hd : d.claiming n ⟨b, k⟩ = .ok (a, r')) :
    d ⟨b, k - n⟩ = .ok (a, r') := by
  rw [claiming_eq] at hd
  split at hd
  · exact hd
  · cases hd

end Decoder

namespace Codec

variable {α β : Type} {c : Codec α} {covers : α → Prop}

/-- Reads nothing but encodings, each as the value that it encodes, at the price of its length. -/
structure Exact (c : Codec α) (covers : α → Prop) : Prop where
  of_decode : ∀ ⦃b k a r⦄, c.decode .wire ⟨b, k⟩ = .ok (a, r) →
    covers a ∧ b = c.toWire a ++ r.rest
  -- a length has to fit into a word
  restores : ∀ ⦃a⦄, covers a → (c.toWire a).length < UInt64.size →
    c.Restores .wire a (c.toWire a).length

theorem exact_of_width {n : Nat} {f : Bytes → α}
    (hd : c.decode .wire = ((Reader.take n).map f).claiming n)
    (hlength : ∀ a, (c.toWire a).length = n)
    (hf : ∀ b, b.length = n → covers (f b) ∧ c.toWire (f b) = b)
    (hto : ∀ a, covers a → f (c.toWire a) = a) : c.Exact covers := by
  refine ⟨fun b k a r ha ↦ ?_, fun a ha _ ↦ ?_⟩
  · rw [hd] at ha
    obtain ⟨taken, ht, rfl⟩ := Decoder.map_eq_ok (Decoder.claiming_eq_ok ha)
    obtain ⟨hn, hb⟩ := Reader.take_eq_ok ht
    obtain ⟨hc, he⟩ := hf taken hn
    exact ⟨hc, by rw [he, hb]⟩
  · have hr := Decoder.reads_width f (hlength a)
    rwa [hto a ha, ← hd, ← hlength a] at hr

theorem exact_uint8 : uint8.Exact fun _ ↦ True := by
  refine exact_of_width (n := 1) (f := (·.headD 0)) ?_ (fun _ ↦ rfl) (fun b hb ↦ ?_) fun _ _ ↦ rfl
  · exact congrArg (Decoder.claiming 1) Reader.byte_eq
  · obtain ⟨x, rfl⟩ := List.length_eq_one_iff.mp hb
    exact ⟨trivial, rfl⟩

theorem exact_natural (w : IntWidth) : (natural w).Exact (· < w.values) := by
  refine exact_of_width rfl (fun n ↦ Bytes.length_ofNatLE w.size n) (fun b hb ↦ ?_) fun n hn ↦ ?_
  · have hlt := b.toNatLE_lt
    have heq := b.ofNatLE_toNatLE
    rw [hb] at hlt heq
    exact ⟨w.values_eq ▸ hlt, heq⟩
  · change Bytes.toNatLE (Bytes.ofNatLE w.size n) = n
    rw [Bytes.toNatLE_ofNatLE, ← w.values_eq, Nat.mod_eq_of_lt hn]

def IsSigned (w : IntWidth) (i : Int) : Prop := -(w.values / 2 : Nat) ≤ i ∧ i < (w.values / 2 : Nat)

theorem signedValue_isSigned {w : IntWidth} {n : Nat} (hn : n < w.values) :
    IsSigned w (signedValue w n) ∧ (signedValue w n % w.values).toNat = n := by
  have heven : 2 ∣ w.values := by cases w <;> decide
  rw [IsSigned, signedValue]
  split
  · refine ⟨by omega, ?_⟩
    rw [Int.emod_eq_of_lt (by omega) (by omega), Int.toNat_natCast]
  · refine ⟨by omega, ?_⟩
    rw [Int.sub_emod_right, Int.emod_eq_of_lt (by omega) (by omega), Int.toNat_natCast]

theorem signedValue_of_isSigned {w : IntWidth} {i : Int} (hi : IsSigned w i) :
    (i % w.values).toNat < w.values ∧ signedValue w (i % w.values).toNat = i := by
  have heven : 2 ∣ w.values := by cases w <;> decide
  obtain ⟨hlow, hhigh⟩ := hi
  rw [signedValue]
  by_cases hneg : i < 0
  · have hm : i % w.values = i + w.values := by
      rw [← Int.add_emod_right, Int.emod_eq_of_lt (by omega) (by omega)]
    rw [hm, if_neg (by omega)]
    omega
  · rw [Int.emod_eq_of_lt (by omega) (by omega), if_pos (by omega)]
    omega

theorem exact_integer (w : IntWidth) : (integer w).Exact (IsSigned w) := by
  refine exact_of_width rfl (fun i ↦ Bytes.length_ofNatLE w.size _) (fun b hb ↦ ?_) fun i hi ↦ ?_
  · have hn : b.toNatLE < w.values := by
      rw [w.values_eq, ← hb]
      exact b.toNatLE_lt
    obtain ⟨hs, he⟩ := signedValue_isSigned hn
    refine ⟨hs, ?_⟩
    change Bytes.ofNatLE w.size (signedValue w b.toNatLE % w.values).toNat = b
    rw [he, ← hb, b.ofNatLE_toNatLE]
  · obtain ⟨hn, he⟩ := signedValue_of_isSigned hi
    change signedValue w (Bytes.toNatLE (Bytes.ofNatLE w.size (i % w.values).toNat)) = i
    rw [Bytes.toNatLE_ofNatLE, ← w.values_eq, Nat.mod_eq_of_lt hn, he]

theorem exact_digest (n : Nat) : (digest n).Exact fun _ ↦ True := by
  refine exact_of_width rfl (fun d ↦ d.length_eq) (fun b hb ↦ ⟨trivial, ?_⟩)
    fun d _ ↦ d.ofPrefix_bytes
  exact congrArg Digest.bytes (Digest.ofPrefix_bytes ⟨b, hb⟩)

theorem Exact.via {P : α → Prop} {Q : β → Prop} {there : β → α} {back : α → β} (hc : c.Exact P)
    (hthere : ∀ b, Q b → P (there b) ∧ back (there b) = b)
    (hback : ∀ a, P a → Q (back a) ∧ there (back a) = a) : (c.via there back).Exact Q := by
  refine ⟨fun b k x r hx ↦ ?_, fun x hx hlt ↦ ?_⟩
  · obtain ⟨a, ha, rfl⟩ := Decoder.map_eq_ok hx
    obtain ⟨hp, hb⟩ := hc.of_decode ha
    obtain ⟨hq, he⟩ := hback a hp
    refine ⟨hq, ?_⟩
    change b = c.toWire (there (back a)) ++ r.rest
    rw [he, ← hb]
  · obtain ⟨hp, he⟩ := hthere x hx
    exact (hc.restores hp hlt).via he

theorem Exact.pair {P : α → Prop} {Q : β → Prop} {d : Codec β} (hc : c.Exact P)
    (hd : d.Exact Q) : (c.pair d).Exact fun p ↦ P p.1 ∧ Q p.2 := by
  refine ⟨fun b k p r hp ↦ ?_, fun p hp hlt ↦ ?_⟩
  · obtain ⟨x, r₁, hx, hp⟩ := Decoder.andThen_eq_ok hp
    obtain ⟨y, hy, rfl⟩ := Decoder.map_eq_ok hp
    obtain ⟨hpx, hbx⟩ := hc.of_decode hx
    obtain ⟨hpy, hby⟩ := hd.of_decode hy
    refine ⟨⟨hpx, hpy⟩, ?_⟩
    rw [hbx, hby]
    exact (List.append_assoc ..).symm
  · have hlength : ((c.pair d).toWire p).length = (c.toWire p.1).length + (d.toWire p.2).length :=
      List.length_append
    rw [hlength] at hlt ⊢
    exact reads_pair (hc.restores hp.1 (by omega)) (hd.restores hp.2 (by omega))

theorem exact_boolean : boolean.Exact fun _ ↦ True := by
  refine ⟨fun b k x r hx ↦ ⟨trivial, ?_⟩, fun x _ _ ↦ ?_⟩
  · obtain ⟨y, r₁, hy, hx⟩ := Decoder.andThen_eq_ok hx
    rw [(exact_uint8.of_decode hy).2]
    split at hx
    next h =>
      cases hx
      exact h ▸ rfl
    next =>
      split at hx
      next h =>
        cases hx
        exact h ▸ rfl
      next => cases hx
  · exact restores_boolean x .wire

theorem Exact.optional (hc : c.Exact fun _ ↦ True) : (optional c).Exact fun _ ↦ True := by
  refine ⟨fun b k x r hx ↦ ⟨trivial, ?_⟩, fun x _ hlt ↦ ?_⟩
  · obtain ⟨y, r₁, hy, hx⟩ := Decoder.andThen_eq_ok hx
    rw [(exact_uint8.of_decode hy).2]
    split at hx
    next h =>
      cases hx
      exact h ▸ rfl
    next =>
      split at hx
      next h =>
        obtain ⟨a, ha, rfl⟩ := Decoder.map_eq_ok hx
        rw [(hc.of_decode ha).2]
        exact h ▸ rfl
      next => cases hx
  · cases x with
    | none => exact restores_none c .wire
    | some a =>
      have hlength : ((Codec.optional c).toWire (some a)).length = 1 + (c.toWire a).length :=
        Nat.add_comm ..
      rw [hlength] at hlt ⊢
      have hr := hc.restores (a := a) trivial (by omega)
      exact hr.some

theorem length_toWire_bytes (b : Bytes) : (bytes.toWire b).length = 8 + b.length :=
  List.length_append

theorem exact_bytes : bytes.Exact fun _ ↦ True := by
  refine ⟨fun b k x r hx ↦ ⟨trivial, ?_⟩, fun x _ hlt ↦ ?_⟩
  · obtain ⟨n, r₁, hn, hx⟩ := Decoder.andThen_eq_ok hx
    obtain ⟨rfl, hb⟩ := Reader.take_eq_ok (Decoder.claiming_eq_ok hx)
    rw [((exact_natural .w64).of_decode hn).2, hb]
    exact (List.append_assoc ..).symm
  · rw [length_toWire_bytes] at hlt ⊢
    exact restores_bytes (by change _ < UInt64.size; omega) .wire

theorem exact_text : text.Exact fun _ ↦ True := by
  refine ⟨fun b k s r hs ↦ ⟨trivial, ?_⟩, fun s _ hlt ↦ ?_⟩
  · obtain ⟨x, r₁, hx, hs⟩ := Decoder.andThen_eq_ok hs
    rw [(exact_bytes.of_decode hx).2]
    cases hu : Utf8.decode x with
    | error e => simp [hu, Decoder.fail] at hs
    | ok s' =>
      rw [hu] at hs
      cases hs
      rw [← Utf8.encode_of_decode hu]
      rfl
  · refine Decoder.Reads.andThen_pure (exact_bytes.restores trivial hlt) ?_
    rw [Utf8.decode_encode]

theorem length_toWire_list {size : Nat} (hsize : ∀ a, (c.toWire a).length = size) (l : List α) :
    ((list size c).toWire l).length = 8 + l.length * size := by
  have hf : (l.flatMap c.toWire).length = l.length * size := by
    rw [List.length_flatMap, List.map_congr_left fun a _ ↦ hsize a, List.map_const',
      List.sum_replicate_nat]
  exact List.length_append.trans (congrArg (8 + ·) hf)

section List

variable {size : Nat} (hc : c.Exact fun _ ↦ True)
include hc

theorem replicate_eq_ok {n k : Nat} {b : Bytes} {l : List α} {r : Reader}
    (hl : ((c.decode .wire).releasing size).replicate n ⟨b, k⟩ = .ok (l, r)) :
    l.length = n ∧ b = l.flatMap c.toWire ++ r.rest := by
  induction n generalizing b k l r with
  | zero =>
    cases hl
    exact ⟨rfl, rfl⟩
  | succ n ih =>
    obtain ⟨a, ⟨b', k'⟩, ha, hl⟩ := Decoder.andThen_eq_ok hl
    obtain ⟨l', hl', rfl⟩ := Decoder.map_eq_ok hl
    obtain ⟨rfl, rfl⟩ := ih hl'
    change c.decode .wire ⟨b, k + size⟩ = _ at ha
    refine ⟨rfl, ?_⟩
    rw [(hc.of_decode ha).2, List.flatMap_cons, List.append_assoc]

theorem Exact.list (hsize : ∀ a, (c.toWire a).length = size) (hpos : 0 < size)
    (hlt : size < UInt64.size) : (list size c).Exact fun _ ↦ True := by
  refine ⟨fun b k l r hl ↦ ⟨trivial, ?_⟩, fun l _ hll ↦ ?_⟩
  · obtain ⟨n, r₁, hn, hl⟩ := Decoder.andThen_eq_ok hl
    obtain ⟨rfl, hb⟩ := replicate_eq_ok hc (Decoder.claiming_eq_ok hl)
    rw [((exact_natural .w64).of_decode hn).2, hb]
    exact (List.append_assoc ..).symm
  · have hle : l.length ≤ l.length * size := Nat.le_mul_of_pos_right _ hpos
    rw [length_toWire_list hsize] at hll ⊢
    have hr (a : α) : c.Restores .wire a size := by
      have ha := hc.restores (a := a) trivial (by rwa [hsize])
      rwa [hsize] at ha
    exact restores_list hr (by change _ < UInt64.size; omega)

end List

theorem exact_uint16 : uint16.Exact fun _ ↦ True :=
  (exact_natural .w16).via (fun x _ ↦ ⟨x.toNat_lt, UInt16.ofNat_toNat⟩)
    fun _ hn ↦ ⟨trivial, UInt16.toNat_ofNat_of_lt' hn⟩

theorem exact_uint32 : uint32.Exact fun _ ↦ True :=
  (exact_natural .w32).via (fun x _ ↦ ⟨x.toNat_lt, UInt32.ofNat_toNat⟩)
    fun _ hn ↦ ⟨trivial, UInt32.toNat_ofNat_of_lt' hn⟩

theorem exact_uint64 : uint64.Exact fun _ ↦ True :=
  (exact_natural .w64).via (fun x _ ↦ ⟨x.toNat_lt, UInt64.ofNat_toNat⟩)
    fun _ hn ↦ ⟨trivial, UInt64.toNat_ofNat_of_lt' hn⟩

theorem exact_int8 : int8.Exact fun _ ↦ True :=
  exact_uint8.via (fun x _ ↦ ⟨trivial, x.toInt8_toUInt8⟩) fun x _ ↦ ⟨trivial, x.toUInt8_toInt8⟩

theorem exact_int16 : int16.Exact fun _ ↦ True :=
  (exact_integer .w16).via (fun x _ ↦ ⟨⟨x.le_toInt, x.toInt_lt⟩, x.ofInt_toInt⟩)
    fun _ hi ↦ ⟨trivial, Int16.toInt_ofInt_of_le hi.1 hi.2⟩

theorem exact_int32 : int32.Exact fun _ ↦ True :=
  (exact_integer .w32).via (fun x _ ↦ ⟨⟨x.le_toInt, x.toInt_lt⟩, x.ofInt_toInt⟩)
    fun _ hi ↦ ⟨trivial, Int32.toInt_ofInt_of_le hi.1 hi.2⟩

theorem exact_int64 : int64.Exact fun _ ↦ True :=
  (exact_integer .w64).via (fun x _ ↦ ⟨⟨x.le_toInt, x.toInt_lt⟩, x.ofInt_toInt⟩)
    fun _ hi ↦ ⟨trivial, Int64.toInt_ofInt_of_le hi.1 hi.2⟩

theorem exact_notice : Notice.codec.Exact fun _ ↦ True :=
  (exact_int32.pair (exact_digest 32)).via (fun _ _ ↦ ⟨⟨trivial, trivial⟩, rfl⟩)
    fun _ _ ↦ ⟨trivial, rfl⟩

theorem exact_checkpoint : Checkpoint.codec.Exact fun c ↦ c.notice = default :=
  (exact_bytes.pair exact_bytes).via
    (fun c hc ↦ ⟨⟨trivial, trivial⟩, by rw [Checkpoint.ofParts, ← hc]⟩)
    fun _ _ ↦ ⟨rfl, rfl⟩

/-- What is read from a payload is encoded as it again, so no other payload is read as the same, and
every encoding up to the limit is read while a longer one is refused.  An encoding is itself a byte
string of the program, whose length is a word. -/
structure Canonical (c : Codec α) (covers : α → Prop) : Prop where
  toWire_of_ofWire : ∀ ⦃b a⦄, c.ofWire b = .ok a → covers a ∧ c.toWire a = b
  eq_of_ofWire : ∀ ⦃b b' a⦄, c.ofWire b = .ok a → c.ofWire b' = .ok a → b = b'
  ofWire_toWire : ∀ ⦃a⦄, covers a → (c.toWire a).length < UInt64.size →
    c.ofWire (c.toWire a) =
      if (c.toWire a).length ≤ Format.wire.limit then .ok a else .error .limitExceeded

theorem ofWire_of_reads {e : Bytes} {a : α} {n : Nat} (hc : (c.decode .wire).Reads e a n) :
    c.ofWire e = if n ≤ Format.wire.limit then .ok a else .error .limitExceeded := by
  have hr := hc [] Format.wire.limit
  rw [List.append_nil] at hr
  rw [ofWire, hr]
  by_cases hn : n ≤ Format.wire.limit
  · simp [if_pos hn]
  · simp [if_neg hn]

theorem Exact.ofWire_toWire (hc : c.Exact covers) {a : α} (ha : covers a)
    (hlt : (c.toWire a).length < UInt64.size) :
    c.ofWire (c.toWire a) =
      if (c.toWire a).length ≤ Format.wire.limit then .ok a else .error .limitExceeded :=
  ofWire_of_reads (hc.restores ha hlt)

theorem Exact.canonical (hc : c.Exact covers) : c.Canonical covers := by
  have hto {b a} (ha : c.ofWire b = .ok a) : covers a ∧ c.toWire a = b := by
    rw [ofWire] at ha
    split at ha
    · cases ha
    next a' r hd =>
      split at ha
      next hr =>
        cases ha
        obtain ⟨hp, hb⟩ := hc.of_decode hd
        rw [List.isEmpty_iff.mp hr, List.append_nil] at hb
        exact ⟨hp, hb.symm⟩
      next => cases ha
  refine ⟨fun b a ha ↦ hto ha, fun b b' a ha ha' ↦ ?_, fun a ha hlt ↦ hc.ofWire_toWire ha hlt⟩
  rw [← (hto ha).2, (hto ha').2]

theorem length_toWire_notice (n : Notice) : (Notice.codec.toWire n).length = 36 := by
  refine List.length_append.trans ?_
  change (Bytes.ofNatLE 4 _).length + n.block.bytes.length = 36
  rw [Bytes.length_ofNatLE, n.block.length_eq]

theorem exists_ofWire_notice {b : Bytes} (hb : b.length = 36) :
    ∃ n, Notice.codec.ofWire b = .ok n := by
  have hv : (int32.decode .wire).Reads (b.take 4) _ 4 :=
    (Decoder.reads_width _ (by rw [List.length_take, hb]; rfl)).map Int32.ofInt
  have hh : ((digest 32).decode .wire).Reads (b.drop 4) _ 32 :=
    Decoder.reads_width Digest.ofPrefix (by rw [List.length_drop, hb])
  have hn : (Notice.codec.decode .wire).Reads (b.take 4 ++ b.drop 4) _ 36 :=
    (reads_pair hv hh).map fun p ↦ (⟨p.1, p.2⟩ : Notice)
  rw [List.take_append_drop] at hn
  exact ⟨_, ofWire_of_reads hn⟩

/-- The payloads of all types that go over the wire.  A received checkpoint knows its payload and
its signature only, and the notices are the byte strings of one length. -/
theorem wire_canonical :
    uint8.Canonical (fun _ ↦ True) ∧ uint16.Canonical (fun _ ↦ True) ∧
    uint32.Canonical (fun _ ↦ True) ∧ uint64.Canonical (fun _ ↦ True) ∧
    int8.Canonical (fun _ ↦ True) ∧ int16.Canonical (fun _ ↦ True) ∧
    int32.Canonical (fun _ ↦ True) ∧ int64.Canonical (fun _ ↦ True) ∧
    boolean.Canonical (fun _ ↦ True) ∧ text.Canonical (fun _ ↦ True) ∧
    bytes.Canonical (fun _ ↦ True) ∧ (list 4 uint32).Canonical (fun _ ↦ True) ∧
    (optional uint32).Canonical (fun _ ↦ True) ∧ (digest 20).Canonical (fun _ ↦ True) ∧
    (digest 32).Canonical (fun _ ↦ True) ∧ Notice.codec.Canonical (fun _ ↦ True) ∧
    Checkpoint.codec.Canonical (fun c ↦ c.notice = default) ∧
    ∀ b, (∃ n, Notice.codec.ofWire b = .ok n) ↔ b.length = 36 := by
  have hlist : (list 4 uint32).Exact fun _ ↦ True :=
    exact_uint32.list (fun x ↦ Bytes.length_ofNatLE 4 x.toNat) (by decide) (by decide)
  refine ⟨exact_uint8.canonical, exact_uint16.canonical, exact_uint32.canonical,
    exact_uint64.canonical, exact_int8.canonical, exact_int16.canonical, exact_int32.canonical,
    exact_int64.canonical, exact_boolean.canonical, exact_text.canonical, exact_bytes.canonical,
    hlist.canonical, exact_uint32.optional.canonical, (exact_digest 20).canonical,
    (exact_digest 32).canonical, exact_notice.canonical, exact_checkpoint.canonical, fun b ↦ ?_⟩
  refine ⟨fun ⟨n, hn⟩ ↦ ?_, exists_ofWire_notice⟩
  rw [← (exact_notice.canonical.toWire_of_ofWire hn).2, length_toWire_notice]

end Codec

end ChainAnchor
