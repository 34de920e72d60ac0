import ChainAnchor.Bytes.Hex
import Std.Data.ExtTreeMap

namespace ChainAnchor

structure Digest (n : Nat) where
  bytes : Bytes
  length_eq : bytes.length = n
  deriving DecidableEq

abbrev Hash := Digest 32

abbrev KeyId := Digest 20

namespace Digest

variable {n : Nat}

@[ext] theorem ext {a b : Digest n} (h : a.bytes = b.bytes) : a = b := by
  cases a; cases b; simp_all

instance : Ord (Digest n) := ⟨compareOn Digest.bytes⟩

instance : Std.TransOrd (Digest n) := inferInstanceAs (Std.TransCmp (compareOn Digest.bytes))

instance : Std.TransOrd Hash := inferInstanceAs (Std.TransOrd (Digest 32))

instance : Std.LawfulEqOrd (Digest n) where
  eq_of_compare {a b} h :=
    Digest.ext (Std.LawfulEqCmp.eq_of_compare (show compare a.bytes b.bytes = .eq from h))

def zero : Digest n := ⟨List.replicate n 0, List.length_replicate ..⟩

instance : Inhabited (Digest n) := ⟨zero⟩

def isZero (d : Digest n) : Bool := d = zero

def ofBytes? (b : Bytes) : Option (Digest n) := if h : b.length = n then some ⟨b, h⟩ else none

/-- The first bytes of a string, with zeros where it runs short. -/
def ofPrefix (b : Bytes) : Digest n :=
  ⟨b.take n ++ List.replicate (n - b.length) 0, by simp; omega⟩

def ofNatLE (k : Nat) : Digest n := ⟨Bytes.ofNatLE n k, Bytes.length_ofNatLE n k⟩

def ofNatBE (k : Nat) : Digest n := ⟨Bytes.ofNatBE n k, Bytes.length_ofNatBE n k⟩

def toHex (d : Digest n) : String := Hex.encode d.bytes

/-- The digest under the name of its kind, as it appears in messages. -/
def describe (kind : String) (d : Digest n) : String := kind ++ "(\"" ++ d.toHex ++ "\")"

inductive Malformed
  | text
  | width
  deriving DecidableEq, Repr

def ofHex (s : String) : Except Malformed (Digest n) :=
  match Hex.decode? s with
  | none => .error .text
  | some b => match ofBytes? b with
    | none => .error .width
    | some d => .ok d

/-- Reads a digest from a constant, which must have exactly the digits it needs. -/
def ofHexExact (s : String) : Except Hex.Malformed (Digest n) :=
  match h : Hex.decodeExact n s with
  | .error e => .error e
  | .ok b => .ok ⟨b, by
      unfold Hex.decodeExact at h
      split at h
      · exact Hex.length_of_takeBytes h
      · cases h⟩

/-- A digest written out in the library itself. -/
def constant (s : String) : Digest n :=
  match ofHexExact s with
  | .ok d => d
  | .error _ => zero

end Digest

end ChainAnchor
