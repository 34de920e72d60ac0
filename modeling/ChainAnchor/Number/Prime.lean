import ChainAnchor.Number.Modular
import ChainAnchor.Number.Random

namespace ChainAnchor

namespace Prime

def smallPrimes : List Nat :=
  [2, 3, 5, 7, 11, 13, 17, 19, 23, 29, 31, 37, 41, 43, 47, 53, 59, 61, 67, 71, 73, 79, 83, 89, 97]

/-- What the smallest primes decide: `n` is one of them, or a multiple of one. -/
def smallVerdict (n : Nat) : Option Bool :=
  smallPrimes.findSome? fun p ↦ if n = p then some true else if n % p = 0 then some false else none

def roundsForSize (size : Nat) : Nat :=
  if 3747 ≤ size then 3 else if 1345 ≤ size then 4 else if 476 ≤ size then 5
  else if 400 ≤ size then 6 else if 347 ≤ size then 7 else if 308 ≤ size then 8
  else if 55 ≤ size then 27 else 34

/-- A number as a power of two and an odd factor. -/
def splitPowerOfTwo (n : Nat) : Nat × Nat :=
  if n = 0 ∨ n % 2 = 1 then (0, n)
  else let (s, d) := splitPowerOfTwo (n / 2); (s + 1, d)
termination_by n
decreasing_by omega

def reachesMinusOne (n : Nat) : Nat → Nat → Bool
  | 0, _ => false
  | k + 1, x => let y := x * x % n; y == n - 1 || reachesMinusOne n k y

/-- The witness does not show that `n` is composite. -/
def passes (n a : Nat) : Bool :=
  let (s, d) := splitPowerOfTwo (n - 1)
  let x := Modular.power n a d
  x == 1 || x == n - 1 || reachesMinusOne n (s - 1) x

/-- Tries witnesses between two and `n - 2`, up to the first that fails. -/
def tryWitnesses (n : Nat) : Nat → Random.Draw Bool
  | 0, supply => some (true, supply)
  | k + 1, supply =>
    match Random.below (n - 3) supply with
    | none => none
    | some (a, rest) => if passes n (a + 2) then tryWitnesses n k rest else some (false, rest)

/-- With no number of rounds given, the size decides. -/
def isProbable (n : Int) (rounds : Nat) : Random.Draw Bool := fun supply ↦
  if n ≤ 1 then some (false, supply)
  else match smallVerdict n.toNat with
    | some verdict => some (verdict, supply)
    | none =>
      let k := if rounds = 0 then roundsForSize (Number.bitLength n.toNat) else rounds
      tryWitnesses n.toNat k supply

theorem length_of_tryWitnesses {n k : Nat} {supply rest : Bytes} {b : Bool}
    (h : tryWitnesses n k supply = some (b, rest)) : rest.length ≤ supply.length := by
  fun_induction tryWitnesses n k supply with
  | case1 => cases h; exact Nat.le_refl _
  | case2 => cases h
  | case3 k supply a r hb _ ih => have := Random.length_of_below hb; have := ih h; omega
  | case4 k supply a r hb _ => cases h; exact Random.length_of_below hb

theorem length_of_isProbable {n : Int} {k : Nat} {supply rest : Bytes} {b : Bool}
    (h : isProbable n k supply = some (b, rest)) : rest.length ≤ supply.length := by
  unfold isProbable at h
  split at h
  · cases h; exact Nat.le_refl _
  · split at h
    · cases h; exact Nat.le_refl _
    · exact length_of_tryWitnesses h

/-- Whether a candidate is prime, and for a safe one its half too. -/
def accepts (safe : Bool) (p : Nat) : Random.Draw Bool := fun supply ↦
  match isProbable p 0 supply with
  | some (true, rest) => if safe then isProbable (p / 2 : Nat) 0 rest else some (true, rest)
  | verdict => verdict

theorem length_of_accepts {safe : Bool} {p : Nat} {supply rest : Bytes} {b : Bool}
    (h : accepts safe p supply = some (b, rest)) : rest.length ≤ supply.length := by
  unfold accepts at h
  split at h
  · rename_i r hr
    have := length_of_isProbable hr
    split at h
    · have := length_of_isProbable h; omega
    · cases h; assumption
  · exact length_of_isProbable h

/-- Draws odd numbers with the top bit set until one is accepted. -/
def search (size : Nat) (safe : Bool) : Random.Draw Nat := fun supply ↦
  if size = 0 then none
  else match _h : Random.bits size supply with
    | none => none
    | some (x, rest) =>
      let p := x ||| Number.powerOfTwo (size - 1) ||| 1
      match _h' : accepts safe p rest with
      | none => none
      | some (true, rest) => some (p, rest)
      | some (false, rest) => search size safe rest
termination_by supply => supply.length
decreasing_by
  have := Random.length_of_bits _h
  have := length_of_accepts _h'
  omega

/-- A prime of exactly `size` bits; a safe one needs three. -/
def generate (size : Nat) (safe : Bool) : Except NumberError (Random.Draw Nat) :=
  if size < (if safe then 3 else 2) then .error .invalidBitSize else .ok (search size safe)

end Prime

end ChainAnchor
