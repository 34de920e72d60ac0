import ChainAnchor.Bytes.Digest

namespace ChainAnchor

structure Secret (n : Nat) where
  contents : Digest n
  deriving DecidableEq

namespace Secret

variable {n : Nat}

def new : Secret n := ⟨Digest.zero⟩

instance : Inhabited (Secret n) := ⟨new⟩

def set (s : Secret n) (i : Nat) (x : UInt8) : Secret n :=
  ⟨⟨s.contents.bytes.set i x, by rw [List.length_set, s.contents.length_eq]⟩⟩

def wipe (_ : Secret n) : Secret n := new

def describe (_ : Secret n) : String := "SecureBytes(..)"

end Secret

end ChainAnchor
