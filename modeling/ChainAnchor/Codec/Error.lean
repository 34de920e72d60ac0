import ChainAnchor.Text.Utf8

namespace ChainAnchor

/-- Widths of integers, named by their number of bits. -/
inductive IntWidth
  | w16
  | w32
  | w64
  | w128
  deriving DecidableEq, Repr

namespace IntWidth

def bits : IntWidth → Nat
  | w16 => 16
  | w32 => 32
  | w64 => 64
  | w128 => 128

def size (w : IntWidth) : Nat := w.bits / 8

def values : IntWidth → Nat
  | w16 => 0x10000
  | w32 => 0x100000000
  | w64 => 0x10000000000000000
  | w128 => 0x100000000000000000000000000000000

def name (signed : Bool) (w : IntWidth) : String := (if signed then "I" else "U") ++ toString w.bits

end IntWidth

inductive DecodeError
  /-- So many more bytes were needed. -/
  | unexpectedEnd (additional : Nat)
  | limitExceeded
  /-- A marker announced a wider integer than expected, or none at all. -/
  | wrongInteger (signed : Bool) (expected : IntWidth) (found : Option IntWidth)
  | wrongBoolean (found : UInt8)
  | wrongOption (found : UInt8)
  | notText (fault : Utf8.Fault)
  | trailingBytes
  deriving DecidableEq, Repr

namespace DecodeError

def faultLength : Option Nat → String
  | none => "None"
  | some n => "Some(" ++ toString n ++ ")"

def message : DecodeError → String
  | unexpectedEnd n => "UnexpectedEnd \x7b additional: " ++ toString n ++ " \x7d"
  | limitExceeded => "LimitExceeded"
  | wrongInteger signed expected found =>
    "InvalidIntegerType \x7b expected: " ++ expected.name signed ++ ", found: " ++
      (match found with | some w => w.name signed | none => "Reserved") ++ " \x7d"
  | wrongBoolean x => "InvalidBooleanValue(" ++ toString x.toNat ++ ")"
  | wrongOption x =>
    "UnexpectedVariant \x7b type_name: \"core::option::Option<u32>\", " ++
      "allowed: Range \x7b min: 0, max: 1 \x7d, found: " ++ toString x.toNat ++ " \x7d"
  | notText fault =>
    "Utf8 \x7b inner: Utf8Error \x7b valid_up_to: " ++ toString fault.offset ++ ", error_len: " ++
      faultLength fault.length ++ " \x7d \x7d"
  | trailingBytes => "Other(\"trailing bytes\")"

end DecodeError

end ChainAnchor
