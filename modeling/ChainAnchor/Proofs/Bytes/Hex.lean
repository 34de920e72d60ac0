import ChainAnchor.Bytes.Hex

namespace ChainAnchor.Hex

variable {k : Nat}

theorem value?_digit : ∀ k < 16, value? (digit k) = some k := by decide

theorem toLower_digit : ∀ k < 16, (digit k).toLower = digit k := by decide

theorem digit_eq_zero_iff : ∀ k < 16, digit k = '0' ↔ k = 0 := by decide

theorem value?_eq (c : Char) : value? c =
    if 48 ≤ c.toNat ∧ c.toNat ≤ 57 then some (c.toNat - 48)
    else if 97 ≤ c.toNat ∧ c.toNat ≤ 102 then some (c.toNat - 87)
    else if 65 ≤ c.toNat ∧ c.toNat ≤ 70 then some (c.toNat - 55)
    else none := rfl

theorem toNat_toLower (c : Char) :
    c.toLower.toNat = if 65 ≤ c.toNat ∧ c.toNat ≤ 90 then c.toNat + 32 else c.toNat := by
  by_cases h : 65 ≤ c.toNat ∧ c.toNat ≤ 90
  · have hval : c.val ≥ 'A'.val ∧ c.val ≤ 'Z'.val :=
      ⟨UInt32.le_iff_toNat_le.mpr h.1, UInt32.le_iff_toNat_le.mpr h.2⟩
    have hlower : c.toLower.toNat = (c.toNat + 32) % 2 ^ 32 := congrArg Char.toNat (dif_pos hval)
    rw [if_pos h, hlower]
    exact Nat.mod_eq_of_lt (by omega)
  · have hval : ¬(c.val ≥ 'A'.val ∧ c.val ≤ 'Z'.val) := fun hval ↦
      h ⟨UInt32.le_iff_toNat_le.mp hval.1, UInt32.le_iff_toNat_le.mp hval.2⟩
    rw [if_neg h]
    exact congrArg Char.toNat (dif_neg hval)

theorem value?_toLower (c : Char) : value? c.toLower = value? c := by
  rw [value?_eq, value?_eq, toNat_toLower]
  grind

end ChainAnchor.Hex
