import ChainAnchor.Curve.Point
import ChainAnchor.Proofs.Number.Inverse
import Mathlib.Data.ZMod.Defs
import Mathlib.Tactic.LinearCombination

namespace ChainAnchor

namespace Curve

open scoped Fin.CommRing

theorem invert_eq {n : Nat} [NeZero n] {x y : Fin n} (h : x * y = 1) : invert x = y := by
  have hxy : x.val * y.val ≡ 1 [MOD n] := by
    have hv := congrArg Fin.val h
    rwa [Fin.val_mul, Fin.val_one'] at hv
  apply Fin.ext
  simp only [invert, Modular.invert?_eq y.isLt hxy, Option.getD_some, Nat.mod_eq_of_lt y.isLt]

theorem left_ne_zero_of_mul_eq_one {x y : Coordinate} (h : x * y = 1) : x ≠ 0 := by
  rintro rfl
  rw [zero_mul] at h
  exact absurd h (by decide)

structure Jacobian where
  x : Coordinate
  y : Coordinate
  z : Coordinate

namespace Jacobian

variable {p : Jacobian} {w x y : Coordinate} {k : Nat} {q r : Point}

def double (p : Jacobian) : Jacobian :=
  let s := 4 * p.x * (p.y * p.y)
  let m := 3 * (p.x * p.x)
  let x := m * m - 2 * s
  ⟨x, m * (s - x) - 8 * (p.y * p.y) * (p.y * p.y), 2 * p.y * p.z⟩

def add (p : Jacobian) (x y : Coordinate) : Jacobian :=
  let zz := p.z * p.z
  let h := x * zz - p.x
  let r := y * (zz * p.z) - p.y
  let u := h * h
  let v := p.x * u
  let x := r * r - h * u - 2 * v
  ⟨x, r * (v - x) - p.y * (h * u), p.z * h⟩

/-- The point that three coordinates stand for, by the inverse of the third one. -/
def point (p : Jacobian) (w : Coordinate) : Point := .affine (p.x * (w * w)) (p.y * (w * w * w))

def multiply (x y : Coordinate) (k : Nat) : Jacobian :=
  if k ≤ 1 then ⟨x, y, 1⟩
  else
    let half := (multiply x y (k / 2)).double
    if k % 2 = 1 then half.add x y else half
termination_by k
decreasing_by omega

theorem z_mul_of_double (hw : p.double.z * w = 1) : p.z * (2 * p.y * w) = 1 := by
  rw [← hw, double]
  ring

theorem z_mul_of_add (hw : (p.add x y).z * w = 1) :
    p.z * ((x * (p.z * p.z) - p.x) * w) = 1 := by
  rw [← hw, add]
  ring

theorem double_point (hw : p.double.z * w = 1) :
    (p.point (2 * p.y * w)).double = p.double.point w := by
  have hz := z_mul_of_double hw
  generalize hu : 2 * p.y * w = u at hz ⊢
  have hv : 2 * (p.y * (u * u * u)) * (p.z * p.z * p.z * p.z * w) = 1 := by
    linear_combination (p.z * u) ^ 3 * p.z * hu +
      ((p.z * u) ^ 3 + (p.z * u) ^ 2 + p.z * u + 1) * hz
  have hy : p.y * (u * u * u) ≠ 0 := by
    intro hy
    rw [hy, mul_zero] at hv
    exact left_ne_zero_of_mul_eq_one hv rfl
  have hs : 3 * (p.x * (u * u)) * (p.x * (u * u)) * (p.z * p.z * p.z * p.z * w) =
      3 * (p.x * p.x) * w := by
    linear_combination (3 * p.x * p.x * w) *
      ((p.z * u) ^ 3 + (p.z * u) ^ 2 + p.z * u + 1) * hz
  rw [point, Point.double, if_neg hy, invert_eq hv, hs, ← hu]
  simp only [Point.along, point, double, Point.affine.injEq]
  constructor <;> ring

theorem add_point (hw : (p.add x y).z * w = 1) :
    (p.point ((x * (p.z * p.z) - p.x) * w)).add (.affine x y) = (p.add x y).point w := by
  have hz := z_mul_of_add hw
  generalize hh : x * (p.z * p.z) - p.x = h at hz ⊢
  have hv : (x - p.x * (h * w * (h * w))) * (p.z * p.z * p.z * w) = 1 := by
    linear_combination p.z * w * hh + (1 - p.x * p.z * w * (p.z * (h * w) + 1)) * hz
  have hx : p.x * (h * w * (h * w)) ≠ x := by
    intro hx
    rw [hx, sub_self] at hv
    exact left_ne_zero_of_mul_eq_one hv rfl
  have hs : (y - p.y * (h * w * (h * w) * (h * w))) * (p.z * p.z * p.z * w) =
      (y * (p.z * p.z * p.z) - p.y) * w := by
    linear_combination -p.y * w * ((p.z * (h * w)) ^ 2 + p.z * (h * w) + 1) * hz
  have hxw : x = (h + p.x) * (h * w * (h * w)) := by
    linear_combination (h * w * (h * w)) * hh - x * (p.z * (h * w) + 1) * hz
  rw [point, Point.add, if_neg hx, invert_eq hv, hs]
  simp only [Point.along, point, add, Point.affine.injEq, hh]
  constructor
  · linear_combination -hxw
  · linear_combination (y * (p.z * p.z * p.z) - p.y) * w * hxw

theorem multiply_point (hk : k ≠ 0) (hw : (multiply x y k).z * w = 1) :
    Point.multiply k (.affine x y) = (multiply x y k).point w := by
  fun_induction multiply x y k generalizing w with
  | case1 k hle =>
    obtain rfl : k = 1 := by omega
    obtain rfl : w = 1 := by rw [← hw, one_mul]
    simp [Point.multiply, Point.double, Point.add, point]
  | case2 k hgt half hodd =>
    rename_i ih
    have hhalf := z_mul_of_add hw
    rw [Point.multiply, if_neg hk]
    dsimp only
    rw [if_pos hodd, ih (by omega) (z_mul_of_double hhalf), double_point hhalf, add_point hw]
  | case3 k hgt half heven =>
    rename_i ih
    rw [Point.multiply, if_neg hk]
    dsimp only
    rw [if_neg heven, ih (by omega) (z_mul_of_double hw), double_point hw]

def multiple? (k : Nat) : Point → Option Point
  | .infinity => none
  | .affine x y =>
    let p := multiply x y k
    let w := invert p.z
    if k ≠ 0 ∧ p.z * w = 1 then some (p.point w) else none

theorem multiply_of_multiple? (h : multiple? k q = some r) : Point.multiply k q = r := by
  cases q with
  | infinity => cases h
  | affine x y =>
    simp only [multiple?] at h
    split at h
    next hw =>
      rw [multiply_point hw.1 hw.2]
      exact Option.some.inj h
    next => cases h

end Jacobian

end Curve

end ChainAnchor
