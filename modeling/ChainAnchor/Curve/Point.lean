import ChainAnchor.Curve.Field

namespace ChainAnchor

namespace Curve

inductive Point
  | infinity
  | affine (x y : Coordinate)
  deriving DecidableEq

namespace Point

def onCurve (x y : Coordinate) : Bool := y * y = x * x * x + 7

def IsOnCurve : Point → Prop
  | infinity => True
  | affine x y => onCurve x y = true

def generator : Point :=
  affine 0x79BE667EF9DCBBAC55A06295CE870B07029BFCDB2DCE28D959F2815B16F81798
    0x483ADA7726A3C4655DA4FBFC0E1108A8FD17B448A68554199C47D08FFB10D4B8

def negate : Point → Point
  | infinity => infinity
  | affine x y => affine x (-y)

/-- The third point on the line with a slope through a point, mirrored. -/
def along (slope x₁ y₁ x₂ : Coordinate) : Point :=
  let x := slope * slope - x₁ - x₂
  affine x (slope * (x₁ - x) - y₁)

def double : Point → Point
  | infinity => infinity
  | affine x y => if y = 0 then infinity else along (3 * x * x * invert (2 * y)) x y x

def add : Point → Point → Point
  | infinity, q => q
  | p, infinity => p
  | affine x₁ y₁, affine x₂ y₂ =>
    if x₁ = x₂ then if y₁ = y₂ then double (affine x₁ y₁) else infinity
    else along ((y₂ - y₁) * invert (x₂ - x₁)) x₁ y₁ x₂

def multiply (k : Nat) (p : Point) : Point :=
  if k = 0 then infinity
  else
    let half := double (multiply (k / 2) p)
    if k % 2 = 1 then half.add p else half
termination_by k
decreasing_by omega

/-- The point with a given first coordinate whose second one is odd or even. -/
def lift? (x : Coordinate) (odd : Bool) : Option Point :=
  match squareRoot? (x * x * x + 7) with
  | none => none
  | some y => some (affine x (if (y.val % 2 == 1) = odd then y else -y))

end Point

end Curve

end ChainAnchor
