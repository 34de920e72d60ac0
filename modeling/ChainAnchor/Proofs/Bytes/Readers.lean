import ChainAnchor.Bytes.Digest
import ChainAnchor.Proofs.Bytes.Hex
import ChainAnchor.Text.Utf8

namespace ChainAnchor

namespace Utf8

theorem encode_eq (s : String) : encode s = s.toList.flatMap String.utf8EncodeChar := by
  rw [encode, String.toUTF8_eq_toByteArray, ← String.ofList_toList (s := s),
    String.toByteArray_ofList, String.toList_ofList]
  simp [List.utf8Encode]

theorem length_encode (s : String) : (encode s).length = s.utf8ByteSize := rfl

/-- Characters below 128 are encoded in the byte of their number; all others start with a byte from
128 on. -/
theorem utf8EncodeChar_cases (c : Char) :
    (c.toNat < 128 ∧ String.utf8EncodeChar c = [UInt8.ofNat c.toNat]) ∨
      (128 ≤ c.toNat ∧ ∃ x rest, String.utf8EncodeChar c = x :: rest ∧ 128 ≤ x.toNat) := by
  have hc : c.val.toNat = c.toNat := rfl
  rw [String.utf8EncodeChar, hc]
  split
  next h => exact Or.inl ⟨by omega, rfl⟩
  next h =>
    refine Or.inr ⟨by omega, ?_⟩
    split
    · refine ⟨_, _, rfl, ?_⟩
      rw [UInt8.toNat_ofNat']
      omega
    split
    · refine ⟨_, _, rfl, ?_⟩
      rw [UInt8.toNat_ofNat']
      omega
    · refine ⟨_, _, rfl, ?_⟩
      rw [UInt8.toNat_ofNat']
      omega

end Utf8

namespace Hex

variable {c : Char} {cs : List Char} {b : Bytes} {s : String} {n k : Nat}

def IsDigit (c : Char) : Prop :=
  ('0' ≤ c ∧ c ≤ '9') ∨ ('a' ≤ c ∧ c ≤ 'f') ∨ ('A' ≤ c ∧ c ≤ 'F')

theorem isDigit_iff : IsDigit c ↔ (value? c).isSome = true := by
  rw [IsDigit, value?]
  grind

theorem value?_lt (h : value? c = some k) : k < 16 := by
  rw [value?_eq] at h
  grind

theorem toNat_lt_of_value? (h : value? c = some k) : c.toNat < 128 := by
  rw [value?_eq] at h
  grind

theorem toOption_nibble : ∀ k < 256,
    (nibble (UInt8.ofNat k)).toOption = (value? (Char.ofNat k)).map UInt8.ofNat := by
  decide +kernel

theorem utf8EncodeChar_of_digit (h : value? c = some k) :
    ∃ x, String.utf8EncodeChar c = [x] ∧ nibble x = .ok (UInt8.ofNat k) := by
  have hlt := toNat_lt_of_value? h
  rcases Utf8.utf8EncodeChar_cases c with ⟨-, he⟩ | ⟨hge, -⟩
  · refine ⟨_, he, ?_⟩
    have hx := toOption_nibble c.toNat (by omega)
    rw [Char.ofNat_toNat, h, Option.map_some] at hx
    cases hn : nibble (UInt8.ofNat c.toNat) with
    | error e => rw [hn] at hx; cases hx
    | ok v => rw [hn] at hx; exact congrArg _ (Option.some.inj hx)
  · omega

theorem utf8EncodeChar_of_not_digit (h : value? c = none) :
    ∃ x rest e, String.utf8EncodeChar c = x :: rest ∧ nibble x = .error e := by
  rcases Utf8.utf8EncodeChar_cases c with ⟨hlt, he⟩ | ⟨-, x, rest, he, hx⟩
  · have hx := toOption_nibble c.toNat (by omega)
    rw [Char.ofNat_toNat, h, Option.map_none] at hx
    cases hn : nibble (UInt8.ofNat c.toNat) with
    | error e => exact ⟨_, _, e, he, hn⟩
    | ok v => rw [hn] at hx; cases hx
  · refine ⟨x, rest, .digit, he, ?_⟩
    simp only [nibble, UInt8.le_iff_toNat_le]
    grind

theorem shifted_or : ∀ hi < 16, ∀ lo < 16,
    UInt8.ofNat hi <<< 4 ||| UInt8.ofNat lo = UInt8.ofNat (16 * hi + lo) := by decide

section

variable {d : Char} {hi lo : Nat}

theorem decodeChars_cons (hc : value? c = some hi) (hd : value? d = some lo) :
    decodeChars (c :: d :: cs) = (decodeChars cs).map (UInt8.ofNat (16 * hi + lo) :: ·) := by
  rw [decodeChars, hc, hd]
  cases decodeChars cs <;> rfl

theorem decodeChars_of_first (hc : value? c = none) : decodeChars (c :: cs) = none := by
  cases cs with
  | nil => rfl
  | cons d cs => rw [decodeChars, hc]; rfl

theorem decodeChars_of_second (hc : value? c = some hi) (hd : value? d = none) :
    decodeChars (c :: d :: cs) = none := by
  rw [decodeChars, hc, hd]
  rfl

end

/-- Bytes are read from nothing but digits, two for each. -/
theorem digits_of_decodeChars : ∀ {cs : List Char} {b : Bytes}, decodeChars cs = some b →
    cs.length = 2 * b.length ∧ ∀ c ∈ cs, IsDigit c
  | [], b, h => by cases h; simp
  | [c], b, h => by cases h
  | c :: d :: cs, b, h => by
    cases hc : value? c with
    | none => rw [decodeChars_of_first hc] at h; cases h
    | some hi =>
      cases hd : value? d with
      | none => rw [decodeChars_of_second hc hd] at h; cases h
      | some lo =>
        rw [decodeChars_cons hc hd] at h
        obtain ⟨b', hb', rfl⟩ := Option.map_eq_some_iff.mp h
        obtain ⟨hl, hall⟩ := digits_of_decodeChars hb'
        have hcd : IsDigit c := isDigit_iff.mpr (by rw [hc]; rfl)
        have hdd : IsDigit d := isDigit_iff.mpr (by rw [hd]; rfl)
        refine ⟨?_, List.forall_mem_cons.mpr ⟨hcd, List.forall_mem_cons.mpr ⟨hdd, hall⟩⟩⟩
        simp only [List.length_cons]
        omega

theorem exists_decodeChars : ∀ {n : Nat} {cs : List Char}, cs.length = 2 * n →
    (∀ c ∈ cs, IsDigit c) → ∃ b, decodeChars cs = some b ∧ b.length = n
  | 0, [], _, _ => ⟨[], rfl, rfl⟩
  | n + 1, c :: d :: cs, hl, hall => by
    obtain ⟨hc, hrest⟩ := List.forall_mem_cons.mp hall
    obtain ⟨hd, hrest⟩ := List.forall_mem_cons.mp hrest
    obtain ⟨hi, hc⟩ := Option.isSome_iff_exists.mp (isDigit_iff.mp hc)
    obtain ⟨lo, hd⟩ := Option.isSome_iff_exists.mp (isDigit_iff.mp hd)
    simp only [List.length_cons] at hl
    obtain ⟨b, hb, hn⟩ := exists_decodeChars (n := n) (by omega) hrest
    refine ⟨_, by rw [decodeChars_cons hc hd, hb]; rfl, ?_⟩
    rw [List.length_cons, hn]

theorem length_flatMap_of_digits (hall : ∀ c ∈ cs, IsDigit c) :
    (cs.flatMap String.utf8EncodeChar).length = cs.length := by
  induction cs with
  | nil => rfl
  | cons c cs ih =>
    obtain ⟨hc, hrest⟩ := List.forall_mem_cons.mp hall
    obtain ⟨k, hk⟩ := Option.isSome_iff_exists.mp (isDigit_iff.mp hc)
    obtain ⟨x, hx, -⟩ := utf8EncodeChar_of_digit hk
    rw [List.flatMap_cons, hx, List.singleton_append, List.length_cons, List.length_cons, ih hrest]

section

variable {x y : UInt8} {hi lo : Nat} {e : Malformed}

theorem takeBytes_of_first (hx : nibble x = .error e) (hb : b ≠ []) :
    takeBytes (n + 1) (x :: b) = .error e := by
  obtain ⟨y, b, rfl⟩ := List.exists_cons_of_ne_nil hb
  rw [takeBytes, hx]

theorem takeBytes_of_second (hx : nibble x = .ok (UInt8.ofNat hi)) (hy : nibble y = .error e) :
    takeBytes (n + 1) (x :: y :: b) = .error e := by
  rw [takeBytes, hx, hy]

theorem toOption_takeBytes_cons (hx : nibble x = .ok (UInt8.ofNat hi))
    (hy : nibble y = .ok (UInt8.ofNat lo)) (hhi : hi < 16) (hlo : lo < 16) :
    (takeBytes (n + 1) (x :: y :: b)).toOption =
      (takeBytes n b).toOption.map (UInt8.ofNat (16 * hi + lo) :: ·) := by
  rw [takeBytes, hx, hy]
  dsimp only
  rw [shifted_or hi hhi lo hlo]
  cases takeBytes n b <;> rfl

end

/-- The reader of bytes gets from an encoding what the reader of characters gets from the text. -/
theorem toOption_takeBytes (hl : (cs.flatMap String.utf8EncodeChar).length = 2 * n) :
    (takeBytes n (cs.flatMap String.utf8EncodeChar)).toOption = decodeChars cs := by
  induction n generalizing cs with
  | zero =>
    cases cs with
    | nil => rfl
    | cons c cs =>
      have hc := c.utf8Size_pos
      rw [List.flatMap_cons, List.length_append, String.length_utf8EncodeChar] at hl
      omega
  | succ n ih =>
    cases cs with
    | nil => cases hl
    | cons c cs =>
      rw [List.flatMap_cons] at hl ⊢
      cases hc : value? c with
      | none =>
        obtain ⟨x, rest, e, hx, he⟩ := utf8EncodeChar_of_not_digit hc
        rw [hx, List.cons_append] at hl ⊢
        have hne : rest ++ cs.flatMap String.utf8EncodeChar ≠ [] := by
          intro h0
          rw [h0, List.length_singleton] at hl
          omega
        rw [takeBytes_of_first he hne, decodeChars_of_first hc]
        rfl
      | some hi =>
        obtain ⟨x, hx, hxok⟩ := utf8EncodeChar_of_digit hc
        rw [hx, List.singleton_append] at hl ⊢
        cases cs with
        | nil =>
          rw [List.flatMap_nil, List.length_singleton] at hl
          omega
        | cons d cs =>
          rw [List.flatMap_cons] at hl ⊢
          cases hd : value? d with
          | none =>
            obtain ⟨y, rest, e, hy, he⟩ := utf8EncodeChar_of_not_digit hd
            rw [hy, List.cons_append, takeBytes_of_second hxok he, decodeChars_of_second hc hd]
            rfl
          | some lo =>
            obtain ⟨y, hy, hyok⟩ := utf8EncodeChar_of_digit hd
            rw [hy, List.singleton_append] at hl ⊢
            simp only [List.length_cons] at hl
            rw [toOption_takeBytes_cons hxok hyok (value?_lt hc) (value?_lt hd),
              ih (by omega), decodeChars_cons hc hd]

theorem toOption_eq_some_iff {ε α : Type} {r : Except ε α} {a : α} :
    r.toOption = some a ↔ r = .ok a := by
  cases r <;> simp [Except.toOption]

theorem decodeExact_eq_ok_iff :
    decodeExact n s = .ok b ↔ decode? s = some b ∧ b.length = n := by
  rw [decodeExact, decode?, ← Utf8.length_encode]
  change (if _ then takeBytes n (Utf8.encode s) else _) = _ ↔ _
  split
  next hl =>
    have hr := toOption_takeBytes (Utf8.encode_eq s ▸ hl)
    rw [← Utf8.encode_eq] at hr
    rw [← hr, toOption_eq_some_iff]
    exact ⟨fun h ↦ ⟨h, length_of_takeBytes h⟩, fun h ↦ h.1⟩
  next hl =>
    refine ⟨fun h ↦ (by cases h), fun ⟨hb, hn⟩ ↦ absurd ?_ hl⟩
    obtain ⟨hcs, hall⟩ := digits_of_decodeChars hb
    rw [Utf8.encode_eq, length_flatMap_of_digits hall, hcs, hn]

theorem exists_decodeExact_iff : (∃ b, decodeExact n s = .ok b) ↔
    s.length = 2 * n ∧ ∀ c ∈ s.toList, IsDigit c := by
  simp only [decodeExact_eq_ok_iff]
  rw [← String.length_toList]
  constructor
  · rintro ⟨b, hb, rfl⟩
    exact digits_of_decodeChars hb
  · rintro ⟨hl, hall⟩
    exact exists_decodeChars hl hall

/-- Reads so many pairs of digits from a position on, the digits of each at two positions that are
reckoned from its number; a position outside of the bytes has none. -/
def pairsFrom? (b : Bytes) : Nat → Nat → Option (Except Malformed Bytes)
  | 0, _ => some (.ok [])
  | n + 1, i =>
    match b[2 * i]?, b[2 * i + 1]? with
    | some x, some y =>
      match nibble x with
      | .error e => some (.error e)
      | .ok hi => match nibble y with
        | .error e => some (.error e)
        | .ok lo => (pairsFrom? b n (i + 1)).map fun r ↦ r.map ((hi <<< 4 ||| lo) :: ·)
    | _, _ => none

theorem pairsFrom?_eq {i : Nat} (hl : 2 * (i + n) ≤ b.length) :
    pairsFrom? b n i = some (takeBytes n (b.drop (2 * i))) := by
  induction n generalizing i with
  | zero => rw [takeBytes]; rfl
  | succ n ih =>
    have h0 : 2 * i < b.length := by omega
    have h1 : 2 * i + 1 < b.length := by omega
    rw [pairsFrom?, List.getElem?_eq_getElem h0, List.getElem?_eq_getElem h1, ih (by omega),
      List.drop_eq_getElem_cons h0, List.drop_eq_getElem_cons h1, takeBytes]
    dsimp only
    cases nibble b[2 * i] with
    | error e => rfl
    | ok hi =>
      cases nibble b[2 * i + 1] with
      | error e => rfl
      | ok lo =>
        dsimp only
        rw [Option.map_some, Nat.mul_add]
        cases takeBytes n (b.drop (2 * i + 2)) <;> rfl

theorem decodeExact_eq_pairsFrom? (n : Nat) (s : String) :
    if s.utf8ByteSize = 2 * n then pairsFrom? (Utf8.encode s) n 0 = some (decodeExact n s)
    else decodeExact n s = .error .length := by
  rw [decodeExact]
  split
  next hl =>
    rw [← Utf8.length_encode] at hl
    rw [pairsFrom?_eq (by omega)]
    rfl
  next => rfl

theorem decodeChars_map_toLower : ∀ cs : List Char,
    decodeChars (cs.map Char.toLower) = decodeChars cs
  | [] => rfl
  | [c] => rfl
  | c :: d :: cs => by
    simp only [List.map_cons, decodeChars, value?_toLower, decodeChars_map_toLower cs]

theorem decodeChars_digits (b : Bytes) : decodeChars (digits b) = some b := by
  induction b with
  | nil => rfl
  | cons x b ih =>
    have hx := x.toNat_lt
    change decodeChars (digit (x.toNat / 16) :: digit (x.toNat % 16) :: digits b) = _
    rw [decodeChars_cons (value?_digit _ (by omega)) (value?_digit _ (by omega)), ih,
      Nat.div_add_mod, UInt8.ofNat_toNat, Option.map_some]

end Hex

namespace Digest

variable {n : Nat} {s : String} {d : Digest n}

theorem ofHex_eq_ok_iff : ofHex s = .ok d ↔ Hex.decode? s = some d.bytes := by
  rw [ofHex]
  cases Hex.decode? s with
  | none => exact ⟨fun h ↦ (by cases h), fun h ↦ (by cases h)⟩
  | some b =>
    dsimp only
    rw [Option.some.injEq]
    by_cases hl : b.length = n
    · rw [show ofBytes? b = some ⟨b, hl⟩ from dif_pos hl]
      exact ⟨fun h ↦ Except.ok.inj h ▸ rfl, fun h ↦ congrArg _ (ext h)⟩
    · rw [show (ofBytes? b : Option (Digest n)) = none from dif_neg hl]
      exact ⟨fun h ↦ (by cases h), fun h ↦ absurd (h ▸ d.length_eq) hl⟩

theorem ofHexExact_eq_ok_iff : ofHexExact s = .ok d ↔ Hex.decodeExact n s = .ok d.bytes := by
  rw [ofHexExact]
  split
  next e he => rw [he]; exact ⟨fun h ↦ (by cases h), fun h ↦ (by cases h)⟩
  next b hb =>
    refine ⟨fun h ↦ Except.ok.inj h ▸ hb, fun h ↦ congrArg _ (ext ?_)⟩
    exact Except.ok.inj (hb.symm.trans h)

theorem ofHexExact_eq_ok_iff_ofHex : ofHexExact s = .ok d ↔ ofHex s = .ok d := by
  rw [ofHexExact_eq_ok_iff, ofHex_eq_ok_iff, Hex.decodeExact_eq_ok_iff]
  exact and_iff_left d.length_eq

/-- Of the digits of a digest any may be in upper case. -/
theorem ofHex_of_toLower (hs : s.toLower = d.toHex) : ofHex s = .ok d := by
  have hl : s.toList.map Char.toLower = Hex.digits d.bytes := by
    have h := congrArg String.toList hs
    rwa [toHex, Hex.encode, String.toList_ofList, show s.toLower = s.map Char.toLower from rfl,
      String.toList_map] at h
  rw [ofHex_eq_ok_iff, Hex.decode?, ← Hex.decodeChars_map_toLower, hl, Hex.decodeChars_digits]

/-- Both readers of a hash take the same texts, among them the text of each hash in letters of any
case.  The reader of an exact number of bytes takes so many pairs of digits and nothing else, and
looks at no position outside of the text. -/
theorem hexReaders_exact :
    (∀ (s : String) (h : Hash), ofHex s = .ok h ↔ ofHexExact s = .ok h) ∧
    (∀ (h : Hash) (s : String), s.toLower = h.toHex → ofHex s = .ok h ∧ ofHexExact s = .ok h) ∧
    ∀ (n : Nat) (s : String),
      ((∃ b, Hex.decodeExact n s = .ok b) ↔
        s.length = 2 * n ∧ ∀ c ∈ s.toList, Hex.IsDigit c) ∧
      if s.utf8ByteSize = 2 * n then
        Hex.pairsFrom? (Utf8.encode s) n 0 = some (Hex.decodeExact n s)
      else Hex.decodeExact n s = .error .length := by
  refine ⟨fun s h ↦ ofHexExact_eq_ok_iff_ofHex.symm, fun h s hs ↦ ?_,
    fun n s ↦ ⟨Hex.exists_decodeExact_iff, Hex.decodeExact_eq_pairsFrom? n s⟩⟩
  have hh := ofHex_of_toLower hs
  exact ⟨hh, ofHexExact_eq_ok_iff_ofHex.mpr hh⟩

theorem hexReaders_exact_mixed :
    let s := "00000000000000000000000000000000000000000000000000000000DeadBEEF"
    let h : Hash := Digest.ofNatBE 0xdeadbeef
    s.toLower = h.toHex ∧ ofHex s = .ok h ∧ ofHexExact s = .ok h := by
  intro s h
  have hs : s.toLower = h.toHex := by decide +kernel
  obtain ⟨-, hcase, -⟩ := hexReaders_exact
  exact ⟨hs, hcase h s hs⟩

end Digest

end ChainAnchor
