import ChainAnchor.Curve.Encoding
import ChainAnchor.Ecdsa.Der
import ChainAnchor.Ecdsa.Recovery
import ChainAnchor.Hash.Hmac
import ChainAnchor.Hash.Ripemd160
import ChainAnchor.Key.Error

namespace ChainAnchor

open Curve

/-- Mixed into child keys so that they cannot be guessed from the parent alone. -/
abbrev ChainCode := Digest 32

/-- Children from this number on are derived from the secret. -/
def hardenedChild : UInt32 := 0x80000000

/-- The hash that a child is derived from; its halves are a number to add and the child's chain
code. -/
def childHash (code : ChainCode) (child : UInt32) (data : Bytes) : Digest 64 :=
  Hmac.sha512 code.bytes (data ++ Bytes.ofNatBE 4 child.toNat)

def leftHalf (d : Digest 64) : Digest 32 := Digest.ofPrefix d.bytes

def rightHalf (d : Digest 64) : ChainCode := Digest.ofPrefix (d.bytes.drop 32)

/-- The length that the first of some bytes announces. -/
def announcedLength : Bytes → Nat
  | [] => 0
  | header :: _ => encodedLength header

structure PublicKey where
  bytes : Bytes
  length_eq : bytes.length = announcedLength bytes
  deriving DecidableEq

namespace PublicKey

def invalid : PublicKey := ⟨[], rfl⟩

/-- Bytes whose number their header does not announce give the invalid key. -/
def ofBytes (b : Bytes) : PublicKey := if h : b.length = announcedLength b then ⟨b, h⟩ else invalid

def isValid (k : PublicKey) : Bool := !k.bytes.isEmpty

def ofHex (s : String) : Except KeyError PublicKey :=
  match Hex.decode? s with
  | none => .error .notHex
  | some b => if (ofBytes b).isValid then .ok (ofBytes b) else .error .invalidPublicKey

def ofPoint (compressed : Bool) (p : Point) : PublicKey := ofBytes (p.encode compressed)

def point? (k : PublicKey) : Option Point := Point.decode? k.bytes

def isFullyValid (k : PublicKey) : Bool := k.point?.isSome

def isCompressed (k : PublicKey) : Bool := k.bytes.length == 33

def toHex (k : PublicKey) : String := Hex.encode k.bytes

def describe (k : PublicKey) : String := "PubKey(\"" ++ k.toHex ++ "\")"

def id (k : PublicKey) : KeyId := Ripemd160.keyId k.bytes

def hash (k : PublicKey) : Hash := Sha256.double k.bytes

instance : Ord PublicKey := ⟨compareOn PublicKey.bytes⟩

def inForm (compressed : Bool) (k : PublicKey) : Option PublicKey :=
  k.point?.map (ofPoint compressed)

def compress (k : PublicKey) : Option PublicKey := k.inForm true

def decompress (k : PublicKey) : Option PublicKey := k.inForm false

/-- Verifies a signature that is read leniently; both halves of the order are accepted. -/
def verify (k : PublicKey) (h : Hash) (sig : Bytes) : Bool :=
  match k.point?, Der.decode? sig with
  | some p, some s => Signature.verify p (Signature.scalarOf h) s.normalize
  | _, _ => false

/-- Bytes of a signature that the key can be recovered from: a header and two numbers. -/
def compactSignatureSize : Nat := 65

def recoverCompact (h : Hash) (sig : Bytes) : Option PublicKey :=
  match sig with
  | [] => none
  | header :: numbers =>
    if sig.length ≠ compactSignatureSize ∨ header < 27 ∨ 35 ≤ header then none
    else
      let id := (header - 27).toNat
      match Signature.ofCompact? numbers with
      | none => none
      | some s => (s.recover? (id % 4) (Signature.scalarOf h)).map (ofPoint (id / 4 == 1))

def verifyCompact (k : PublicKey) (h : Hash) (sig : Bytes) : Bool := recoverCompact h sig == some k

/-- The point of a key with a multiple of the generator added, unless that is infinity. -/
def addTweak? (tweak : Scalar) (p : Point) : Option Point :=
  match p.add (Point.multiply tweak.val Point.generator) with
  | .infinity => none
  | q => some q

/-- The child of a compressed key, for children that do not need the secret. -/
def derive (k : PublicKey) (child : UInt32) (code : ChainCode) : Option (PublicKey × ChainCode) :=
  if hardenedChild ≤ child ∨ k.isCompressed = false then none
  else
    let out := childHash code child k.bytes
    let n := Bytes.toNatBE (leftHalf out).bytes
    if h : n < order then
      match k.point?.bind (addTweak? ⟨n, h⟩) with
      | none => none
      | some p => some (ofPoint true p, rightHalf out)
    else none

end PublicKey

end ChainAnchor
