import ChainAnchor.Number.Arithmetic

namespace ChainAnchor

namespace Random

/-- A value made from the front of a supply of bytes. -/
abbrev Draw (α : Type) := Bytes → Option (α × Bytes)

def bytes (n : Nat) : Draw Bytes := fun supply ↦
  let taken := supply.take n
  if taken.length < n then none else some (taken, supply.drop n)

def bits (k : Nat) : Draw Nat := fun supply ↦
  match bytes ((k + 7) / 8) supply with
  | none => none
  | some (b, rest) => some (Bytes.toNatBE b % Number.powerOfTwo k, rest)

theorem length_of_bytes {n : Nat} {supply b rest : Bytes} (h : bytes n supply = some (b, rest)) :
    b.length = n ∧ rest.length + n = supply.length := by
  simp only [bytes, List.length_take] at h
  split at h
  · cases h
  · cases h; simp; omega

theorem length_of_bits {k x : Nat} {supply rest : Bytes} (h : bits k supply = some (x, rest)) :
    rest.length + (k + 7) / 8 = supply.length := by
  unfold bits at h
  split at h
  · cases h
  · rename_i h'; cases h; exact (length_of_bytes h').2

/-- A number below a bound: numbers of as many bits as the bound are drawn until one fits. -/
def below (bound : Nat) : Draw Nat := fun supply ↦
  if bound = 0 then none
  else match _h : bits (Number.bitLength bound) supply with
    | none => none
    | some (x, rest) => if x < bound then some (x, rest) else below bound rest
termination_by supply => supply.length
decreasing_by
  have := length_of_bits _h
  have : 0 < Number.bitLength bound := by unfold Number.bitLength; split <;> omega
  omega

theorem length_of_below {bound x : Nat} {supply rest : Bytes}
    (h : below bound supply = some (x, rest)) : rest.length ≤ supply.length := by
  fun_induction below bound supply with
  | case1 => cases h
  | case2 => cases h
  | case3 supply _ y r hb => cases h; have := length_of_bits hb; omega
  | case4 supply _ y r hb _ ih => have := length_of_bits hb; have := ih h; omega

def range (bound : Int) : Except NumberError (Draw Nat) :=
  if bound ≤ 0 then .error .invalidRange else .ok (below bound.toNat)

end Random

end ChainAnchor
