import ChainAnchor.Number.Arithmetic

namespace ChainAnchor

namespace Modular

/-- `b ^ e` modulo `m` by repeated squaring. -/
def power (m b e : Nat) : Nat :=
  if e = 0 then 1 % m
  else
    let r := power m (b * b % m) (e / 2)
    if e % 2 = 1 then b * r % m else r
termination_by e
decreasing_by omega

/-- Euclid's algorithm on `r` and `s` with the factors `x` and `y` of a number that they keep being
multiples of: the greatest common divisor and its factor. -/
def bezout (r s : Nat) (x y : Int) : Nat × Int :=
  if s = 0 then (r, x) else bezout s (r % s) y (x - (r / s : Nat) * y)
termination_by s
decreasing_by exact Nat.mod_lt _ (by omega)

/-- The residue whose product with `a` is one, if `a` and `m` have no common divisor. -/
def invert? (m a : Nat) : Option Nat :=
  let (g, x) := bezout m (a % m) 0 1
  if g = 1 then some (x % m).toNat else none

def residue (a m : Int) : Nat := (a % m).toNat

def multiply (a b m : Int) : Except NumberError Int :=
  if m = 0 then .error .invalidModulus else .ok (residue a m * residue b m % m.natAbs : Nat)

def inverse (a m : Int) : Except NumberError Int :=
  if m = 0 then .error .invalidModulus
  else match invert? m.natAbs (residue a m) with
    | some x => .ok x
    | none => .error .notInvertible

/-- A negative exponent raises the inverse. -/
def pow (a e m : Int) : Except NumberError Int :=
  if m = 0 then .error .invalidModulus
  else if 0 ≤ e then .ok (power m.natAbs (residue a m) e.toNat)
  else match inverse a m with
    | .ok x => .ok (power m.natAbs (residue x m) e.natAbs)
    | .error err => .error err

end Modular

end ChainAnchor
