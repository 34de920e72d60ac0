import ChainAnchor.Bytes

namespace ChainAnchor

namespace Hex

/-- The lower case digit of a value below sixteen. -/
def digit (n : Nat) : Char := Char.ofNat (if n < 10 then 48 + n else 87 + n)

/-- The value of a digit of either case. -/
def value? (c : Char) : Option Nat :=
  if '0' ≤ c ∧ c ≤ '9' then some (c.toNat - 48)
  else if 'a' ≤ c ∧ c ≤ 'f' then some (c.toNat - 87)
  else if 'A' ≤ c ∧ c ≤ 'F' then some (c.toNat - 55)
  else none

def digits (b : Bytes) : List Char := b.flatMap fun x ↦ [digit (x.toNat / 16), digit (x.toNat % 16)]

def encode (b : Bytes) : String := String.ofList (digits b)

def decodeChars : List Char → Option Bytes
  | [] => some []
  | [_] => none
  | c :: d :: rest => do
    let hi ← value? c
    let lo ← value? d
    let tail ← decodeChars rest
    return UInt8.ofNat (16 * hi + lo) :: tail

def decode? (s : String) : Option Bytes := decodeChars s.toList

inductive Malformed
  | length
  | digit
  deriving DecidableEq, Repr

/-- The value of the digit that a byte encodes. -/
def nibble (x : UInt8) : Except Malformed UInt8 :=
  if 48 ≤ x ∧ x ≤ 57 then .ok (x - 48)
  else if 97 ≤ x ∧ x ≤ 102 then .ok (x - 97 + 10)
  else if 65 ≤ x ∧ x ≤ 70 then .ok (x - 65 + 10)
  else .error .digit

/-- Reads `n` bytes off the front of encoded digits. -/
def takeBytes : Nat → Bytes → Except Malformed Bytes
  | 0, _ => .ok []
  | n + 1, x :: y :: rest =>
    match nibble x with
    | .error e => .error e
    | .ok hi =>
      match nibble y with
      | .error e => .error e
      | .ok lo =>
        match takeBytes n rest with
        | .error e => .error e
        | .ok tail => .ok ((hi <<< 4 ||| lo) :: tail)
  | _ + 1, _ => .error .length

/-- Reads a text whose encoding has exactly `2 * n` bytes, all of them digits. -/
def decodeExact (n : Nat) (s : String) : Except Malformed Bytes :=
  if s.utf8ByteSize = 2 * n then takeBytes n s.toUTF8.data.toList else .error .length

theorem length_of_takeBytes {n : Nat} {b out : Bytes} (h : takeBytes n b = .ok out) :
    out.length = n := by
  fun_induction takeBytes n b generalizing out <;> grind

end Hex

end ChainAnchor
