import ChainAnchor.Proofs.Key.Signing

namespace ChainAnchor

open Curve Point

variable {r s : Nat}

namespace Signature

/-- If a number is out of range, neither signature keeps anything of it. -/
theorem ofNumbers_opposite (hs : 0 < s) (hlt : s < order) :
    ofNumbers r (order - s) = { ofNumbers r s with s := -(ofNumbers r s).s } := by
  have hlt' : order - s < order := Nat.sub_lt (Nat.lt_trans hs hlt) hs
  by_cases hr : r < order
  · rw [ofNumbers, ofNumbers, dif_pos ⟨hr, hlt'⟩, dif_pos ⟨hr, hlt⟩]
    congr 1
    ext
    rw [Fin.val_neg', Nat.mod_eq_of_lt hlt']
  · rw [ofNumbers, ofNumbers, dif_neg fun h ↦ hr h.1, dif_neg fun h ↦ hr h.1]
    rfl

theorem normalize_ofNumbers_opposite (hs : 0 < s) (hlt : s < order) :
    (ofNumbers r (order - s)).normalize = (ofNumbers r s).normalize := by
  rw [ofNumbers_opposite hs hlt]
  by_cases hr : r < order
  · apply normalize_neg
    rw [ofNumbers, dif_pos ⟨hr, hlt⟩]
    exact fun h ↦ hs.ne' (congrArg Fin.val h)
  · rw [ofNumbers, dif_neg fun h ↦ hr h.1]
    rfl

end Signature

namespace PublicKey

variable {b b' : Bytes}

/-- A key looks at nothing but the two numbers that the lenient reader finds. -/
theorem verify_of_readNumbers (k : PublicKey) (h : Hash) (hb : Der.readNumbers b = some (r, s)) :
    k.verify h b = match k.point? with
      | none => false
      | some p =>
        Signature.verify p (Signature.scalarOf h) (Signature.ofNumbers r s).normalize := by
  rw [verify, Der.decode?, hb, Option.map_some]
  cases k.point? <;> rfl

def generator : PublicKey := ofPoint true Point.generator

/-- With one for secret and nonce, both numbers of a signature of zero are the first coordinate of
the generator. -/
def generatorX : Nat := 0x79BE667EF9DCBBAC55A06295CE870B07029BFCDB2DCE28D959F2815B16F81798

theorem multiply_one_generator : multiply (1 : Scalar).val Point.generator = Point.generator := by
  decide +kernel

theorem solves_generatorX : (Signature.ofNumbers generatorX generatorX).Solves 1 0 1 where
  r_eq := ⟨_, _, multiply_one_generator, by decide +kernel⟩
  s_eq := by decide +kernel
  r_ne := by decide +kernel
  s_ne := by decide +kernel

theorem verify_generatorX :
    generator.verify Digest.zero (Der.loose generatorX generatorX) = true := by
  have hlt : generatorX < 256 ^ 32 := by decide
  have hb := Der.readNumbers_eq_some_iff.mpr (Der.spells_loose hlt hlt)
  have hlow : isHigh (Signature.ofNumbers generatorX generatorX).s = false := by decide
  have hp : generator.point? = some Point.generator :=
    point?_ofPoint true (by decide +kernel : onCurve _ _ = true) (by decide)
  have hz : Signature.scalarOf Digest.zero = 0 := by decide
  have hv := solves_generatorX.verify hlow
  rw [multiply_one_generator] at hv
  rw [verify_of_readNumbers _ _ hb, hp, hz]
  dsimp only
  rw [Signature.normalize_of_low hlow, hv]

/-- A signature and its opposite verify together, whatever bytes they are read from. -/
theorem verify_opposite (k : PublicKey) (h : Hash) (hs : 0 < s) (hlt : s < order)
    (hb : Der.readNumbers b = some (r, s)) (hb' : Der.readNumbers b' = some (r, order - s)) :
    k.verify h b = k.verify h b' := by
  rw [verify_of_readNumbers k h hb, verify_of_readNumbers k h hb',
    Signature.normalize_ofNumbers_opposite hs hlt]

theorem verify_opposite_generatorX :
    0 < generatorX ∧ generatorX < order ∧
      Der.readNumbers (Der.loose generatorX generatorX) = some (generatorX, generatorX) ∧
      Der.readNumbers (Der.encode (Signature.ofNumbers generatorX (order - generatorX))) =
        some (generatorX, order - generatorX) ∧
      generator.verify Digest.zero
        (Der.encode (Signature.ofNumbers generatorX (order - generatorX))) = true := by
  have hlt : generatorX < 256 ^ 32 := by decide
  have hb := Der.readNumbers_eq_some_iff.mpr (Der.spells_loose hlt hlt)
  have hb' := Der.readNumbers_encode (Signature.ofNumbers generatorX (order - generatorX))
  refine ⟨by decide, by decide, hb, hb', ?_⟩
  rw [← verify_opposite generator Digest.zero (by decide) (by decide) hb hb', verify_generatorX]

end PublicKey

end ChainAnchor
