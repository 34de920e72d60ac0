namespace ChainAnchor

inductive NumberError
  | divisionByZero
  | invalidModulus
  | notInvertible
  | invalidRadix (radix : UInt32)
  | invalidRange
  | invalidBitSize
  | missingLength
  | lengthMismatch
  deriving DecidableEq, Repr

namespace NumberError

def message : NumberError → String
  | divisionByZero => "DivisionByZero"
  | invalidModulus => "InvalidModulus"
  | notInvertible => "NotInvertible"
  | invalidRadix radix => "InvalidRadix(" ++ toString radix.toNat ++ ")"
  | invalidRange => "InvalidRange"
  | invalidBitSize => "InvalidBitSize"
  | missingLength => "InvalidEncoding(\"mpi length prefix is missing\")"
  | lengthMismatch => "InvalidEncoding(\"mpi length prefix mismatch\")"

end NumberError

end ChainAnchor
