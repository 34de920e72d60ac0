import ChainAnchor.Number.Arithmetic
import ChainAnchor.Text.Blank

namespace ChainAnchor

namespace Radix

def digitsOnto (radix n : Nat) (tail : List Char) : List Char :=
  if _h : n = 0 ∨ radix < 2 then tail
  else digitsOnto radix (n / radix) (Hex.digit (n % radix) :: tail)
termination_by n
decreasing_by exact Nat.div_lt_self (by omega) (by omega)

def digits (radix n : Nat) : List Char := if n = 0 then ['0'] else digitsOnto radix n []

def render (radix : Nat) (a : Int) : String :=
  String.ofList (if a < 0 then '-' :: digits radix a.natAbs else digits radix a.natAbs)

/-- Text in a radix for which there are digits. -/
def render? (radix : UInt32) (a : Int) : Except NumberError String :=
  if 2 ≤ radix ∧ radix ≤ 16 then .ok (render radix.toNat a) else .error (.invalidRadix radix)

def hex (a : Int) : String := render 16 a

def dropSign : List Char → Bool × List Char
  | '-' :: s => (true, s)
  | s => (false, s)

def dropMarker : List Char → List Char
  | '0' :: 'x' :: s => s
  | '0' :: 'X' :: s => s
  | s => s

def readDigits (s : List Char) : Nat := s.foldl (fun n c ↦ 16 * n + (Hex.value? c).getD 0) 0

/-- Blanks, a sign, a marker and blanks again may precede the digits, whose run ends at a blank; a
character of the run that is no digit counts as zero. -/
def ofHexChars (s : List Char) : Int :=
  let (negative, s) := dropSign (Text.trimStart s)
  let run := (Text.trimStart (dropMarker s)).takeWhile fun c ↦ !Text.isBlank c
  if negative then -(readDigits run : Int) else readDigits run

def ofHex (s : String) : Int := ofHexChars s.toList

/-- The number under the name of its kind, as it appears in messages. -/
def describe (a : Int) : String := "Bignum(\"" ++ hex a ++ "\")"

end Radix

end ChainAnchor
