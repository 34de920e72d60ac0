import ChainAnchor.Bytes

namespace ChainAnchor

namespace Utf8

structure Fault where
  offset : Nat
  length : Option Nat
  deriving DecidableEq, Repr

def isTail (x : UInt8) : Bool := 0x80 ≤ x && x ≤ 0xBF

/-- Which second bytes may follow a first byte. -/
def isSecond (first second : UInt8) : Bool :=
  if first = 0xE0 then 0xA0 ≤ second && second ≤ 0xBF
  else if first = 0xED then 0x80 ≤ second && second ≤ 0x9F
  else if first = 0xF0 then 0x90 ≤ second && second ≤ 0xBF
  else if first = 0xF4 then 0x80 ≤ second && second ≤ 0x8F
  else isTail second

def width (first : UInt8) : Option Nat :=
  if first < 0x80 then some 1
  else if 0xC2 ≤ first && first ≤ 0xDF then some 2
  else if 0xE0 ≤ first && first ≤ 0xEF then some 3
  else if 0xF0 ≤ first && first ≤ 0xF4 then some 4
  else none

/-- Checks the bytes after the first two, of which `seen` are good so far. -/
def checkTail (seen : Nat) : Nat → Bytes → Option (Option Nat)
  | 0, _ => none
  | _ + 1, [] => some none
  | k + 1, x :: rest => if isTail x then checkTail (seen + 1) k rest else some (some seen)

/-- What is wrong with the character that starts with a byte, if anything. -/
def check (first : UInt8) (rest : Bytes) : Option (Option Nat) :=
  match width first with
  | none => some (some 1)
  | some 1 => none
  | some k => match rest with
    | [] => some none
    | x :: rest => if isSecond first x then checkTail 2 (k - 2) rest else some (some 1)

def firstFault (offset : Nat) : Bytes → Option Fault
  | [] => none
  | x :: rest => match check x rest with
    | some length => some ⟨offset, length⟩
    | none =>
      let k := (width x).getD 1
      firstFault (offset + k) (rest.drop (k - 1))
termination_by b => b.length
decreasing_by simp only [List.length_drop, List.length_cons]; omega

def encode (s : String) : Bytes := s.toUTF8.data.toList

def decode (b : Bytes) : Except Fault String :=
  match String.fromUTF8? ⟨b.toArray⟩ with
  | some s => .ok s
  | none => .error ((firstFault 0 b).getD ⟨b.length, none⟩)

end Utf8

end ChainAnchor
