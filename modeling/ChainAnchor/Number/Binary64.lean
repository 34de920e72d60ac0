namespace ChainAnchor

inductive Binary64
  /-- A multiple of a power of two. -/
  | finite (negative : Bool) (multiple : Nat) (power : Int)
  | infinite (negative : Bool)
  | nan
  deriving DecidableEq, Repr

namespace Binary64

/-- The least multiple with 53 binary digits. -/
def leastFull : Nat := 0x10000000000000

/-- The greatest number of 64 bits. -/
def greatest : Nat := 0xFFFFFFFFFFFFFFFF

/-- A quotient, rounded to the nearest number, and to the even one of two that are as near. -/
def roundedQuotient (a b : Nat) : Nat :=
  let q := a / b
  let twice := 2 * (a % b)
  if b < twice || (twice = b && q % 2 = 1) then q + 1 else q

/-- A power with an exponent of any sign, as a fraction. -/
def power (base : Nat) (e : Int) : Nat × Nat :=
  if 0 ≤ e then (Nat.pow base e.toNat, 1) else (1, Nat.pow base (-e).toNat)

/-- The exponent that leaves a positive fraction with 53 binary digits before the point, or with
fewer where the format has no smaller exponent. -/
def exponentOf (a b : Nat) : Int :=
  let least : Int := -1074
  let e := max ((a.log2 : Int) - b.log2 - 53) least
  let (p, q) := power 2 e
  if leastFull * 2 ≤ a * q / (b * p) then e + 1 else e

def ofFraction (negative : Bool) (a b : Nat) : Binary64 :=
  let e := exponentOf a b
  let (p, q) := power 2 e
  let m := roundedQuotient (a * q) (b * p)
  let (m, e) := if m = leastFull * 2 then (leastFull, e + 1) else (m, e)
  if 971 < e then infinite negative else finite negative m e

/-- The number nearest to some digits with a decimal exponent. -/
def ofDecimal (negative : Bool) (digits : Nat) (e : Int) : Binary64 :=
  let size := (Nat.toDigits 10 digits).length + e
  if digits = 0 || size < -400 then finite negative 0 0
  else if 400 < size then infinite negative
  else
    let (p, q) := power 10 e
    ofFraction negative (digits * p) q

/-- The number of digits before the point of a positive fraction, negative for zeros after it. -/
def decimalPoint (a b : Nat) : Int :=
  if b ≤ a then (Nat.toDigits 10 (a / b)).length
  else 1 - (Nat.toDigits 10 ((b - 1) / a)).length

/-- Decimal fractions of so many digits on both sides of a fraction, the nearer one first, and the
greater one of two that are as near. -/
def neighbours (a b : Nat) (digits : Nat) : List (Nat × Int) :=
  let e := decimalPoint a b - digits
  let (p, q) := power 10 e
  let below := a * q / (b * p)
  let twice := 2 * (a * q % (b * p))
  if twice < b * p then [(below, e), (below + 1, e)] else [(below + 1, e), (below, e)]

/-- The shortest digits that lead back to a number, with a decimal exponent; of several the nearest.
-/
def shortest (m : Nat) (e : Int) : Nat × Int :=
  let (p, q) := power 2 e
  let a := m * p
  let leadsBack (d : Nat × Int) : Bool := ofDecimal false d.1 d.2 == ofFraction false a q
  ((List.range' 1 17).findSome? fun n ↦ (neighbours a q n).find? leadsBack).getD (0, 0)

def positional (digits : Nat) (e : Int) : String :=
  let l := Nat.toDigits 10 digits
  if 0 ≤ e then String.ofList (l ++ List.replicate e.toNat '0')
  else
    let places := (-e).toNat
    let l := List.replicate (places + 1 - l.length) '0' ++ l
    let whole := l.take (l.length - places)
    let rest := ((l.drop (l.length - places)).reverse.dropWhile (· == '0')).reverse
    String.ofList (if rest.isEmpty then whole else whole ++ '.' :: rest)

def render : Binary64 → String
  | nan => "NaN"
  | infinite negative => if negative then "-inf" else "inf"
  | finite negative m e =>
    (if negative then "-" else "") ++
      if m = 0 then "0" else
        let (digits, e) := shortest m e
        positional digits e

/-- The text of a number in a message, which always shows that it is not a whole one by its type. -/
def describe (x : Binary64) : String :=
  match x with
  | finite _ _ _ => if x.render.toList.contains '.' then x.render else x.render ++ ".0"
  | _ => x.render

def isZero : Binary64 → Bool
  | finite _ m _ => m = 0
  | _ => false

/-- The nearest whole number, halves away from zero, brought into the range of 64 bits. -/
def toNat : Binary64 → Nat
  | nan => 0
  | infinite negative => if negative then 0 else greatest
  | finite negative m e =>
    let (p, q) := power 2 e
    if negative then 0 else min ((2 * m * p + q) / (2 * q)) greatest

end Binary64

end ChainAnchor
