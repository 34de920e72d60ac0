import ChainAnchor.Ecdsa.Nonce
import ChainAnchor.Key.Public
import ChainAnchor.Number.Random
import ChainAnchor.Text.Blank
import ChainAnchor.Text.Utf8

namespace ChainAnchor

open Curve

structure PrivateKey where
  secret : Digest 32
  valid : Bool
  compressed : Bool
  deriving DecidableEq

namespace PrivateKey

def new : PrivateKey := ⟨Digest.zero, false, false⟩

def isSecret (b : Bytes) : Bool := 0 < Bytes.toNatBE b && Bytes.toNatBE b < order

/-- Imports a secret; what is no secret wipes the key. -/
def set (k : PrivateKey) (b : Bytes) (compressed : Bool) : Bool × PrivateKey :=
  match Digest.ofBytes? b with
  | none => (false, { k with secret := Digest.zero, valid := false })
  | some d =>
    if isSecret b then (true, ⟨d, true, compressed⟩)
    else (false, { k with secret := Digest.zero, valid := false })

def ofBytes (b : Bytes) (compressed : Bool) : Except KeyError PrivateKey :=
  match new.set b compressed with
  | (true, k) => .ok k
  | (false, _) => .error .invalidSecret

/-- Reads a secret from digits, with blanks around them. -/
def ofHex (s : String) (compressed : Bool) : Except KeyError PrivateKey :=
  match Hex.decode? (String.ofList (Text.trim s.toList)) with
  | none => .error .notHex
  | some b => ofBytes b compressed

/-- Draws secrets until one is in range. -/
def generate (compressed : Bool) : Random.Draw PrivateKey := fun supply ↦
  match h : Random.bytes 32 supply with
  | none => none
  | some (b, rest) =>
    if isSecret b then some (⟨⟨b, (Random.length_of_bytes h).1⟩, true, compressed⟩, rest)
    else generate compressed rest
termination_by supply => supply.length
decreasing_by
  have := (Random.length_of_bytes h).2
  omega

def scalar (k : PrivateKey) : Except KeyError Scalar :=
  if k.valid = false then .error .invalidKey
  else if isSecret k.secret.bytes then .ok (Fin.ofNat order (Bytes.toNatBE k.secret.bytes))
  else .error .invalidSecret

def point (k : PrivateKey) : Except KeyError Point :=
  match k.scalar with
  | .error e => .error e
  | .ok s => .ok (Point.multiply s.val Point.generator)

def publicKey (k : PrivateKey) : Except KeyError PublicKey :=
  match k.point with
  | .error e => .error e
  | .ok p => .ok (PublicKey.ofPoint k.compressed p)

def signature (k : PrivateKey) (h : Hash) : Except KeyError Signature :=
  match k.scalar with
  | .error e => .error e
  | .ok _ => match Signature.sign? k.secret h with
    | none => .error .noNonce
    | some sig => .ok sig

def sign (k : PrivateKey) (h : Hash) : Except KeyError Bytes :=
  match k.signature h with
  | .error e => .error e
  | .ok sig => .ok (Der.encode sig)

def recoveryId? (own : PublicKey) (compressed : Bool) (sig : Signature) (z : Scalar) : Option Nat :=
  [0, 1, 2, 3].find? fun id ↦ (sig.recover? id z).map (PublicKey.ofPoint compressed) == some own

/-- A signature that the public key can be recovered from: a header and two numbers. -/
def signCompact (k : PrivateKey) (h : Hash) : Except KeyError Bytes :=
  match k.publicKey with
  | .error e => .error e
  | .ok own => match k.signature h with
    | .error e => .error e
    | .ok sig => match recoveryId? own k.compressed sig (Signature.scalarOf h) with
      | none => .error .recoveryFailed
      | some id => .ok (UInt8.ofNat (27 + id + if k.compressed then 4 else 0) :: sig.numbers)

def verificationText : Bytes := Utf8.encode "Stakecoin key verification\n"

/-- Whether a public key belongs to this one, by a signature of a random challenge. -/
def verifyPublicKey (k : PrivateKey) (pub : PublicKey) (challenge : Bytes) : Bool :=
  if pub.isCompressed ≠ k.compressed then false
  else
    let h := Sha256.double (verificationText ++ challenge)
    match k.sign h with
    | .error _ => false
    | .ok sig => pub.verify h sig

/-- Imports a secret with its public key, which is put to the test unless that is skipped. -/
def load (b : Bytes) (pub : PublicKey) (skip : Bool) (challenge : Bytes) :
    Except KeyError PrivateKey :=
  match ofBytes b pub.isCompressed with
  | .error e => .error e
  | .ok k => if skip || k.verifyPublicKey pub challenge then .ok k else .error .invalidKey

/-- The sum of a secret and a number below the order, if it is a secret. -/
def tweak? (secret tweak : Digest 32) : Option (Digest 32) :=
  let t := Bytes.toNatBE tweak.bytes
  if order ≤ t then none
  else
    let sum := (Bytes.toNatBE secret.bytes + t) % order
    if sum = 0 then none else some (Digest.ofNatBE sum)

/-- What the hash of a child starts from: the secret for a hardened one, else the public key. -/
def childData (k : PrivateKey) (child : UInt32) : Except KeyError Bytes :=
  if child < hardenedChild then
    match k.point with
    | .error e => .error e
    | .ok p => .ok (p.encode true)
  else .ok (0 :: k.secret.bytes)

def derive (k : PrivateKey) (child : UInt32) (code : ChainCode) : Option (PrivateKey × ChainCode) :=
  if k.valid = false then none
  else match k.childData child with
    | .error _ => none
    | .ok data =>
      let out := childHash code child data
      match tweak? k.secret (leftHalf out) with
      | none => none
      | some secret => some (⟨secret, true, true⟩, rightHalf out)

def describe (k : PrivateKey) : String :=
  "PrivKey \x7b valid: " ++ toString k.valid ++ ", compressed: " ++ toString k.compressed ++
    ", .. \x7d"

end PrivateKey

/-- Whether a part of a signature is positive and at most the greatest scalar, or at most half of
it. -/
def isSignatureElement (b : Bytes) (half : Bool) : Bool :=
  let n := Bytes.toNatBE b
  0 < n && n ≤ (if half then order / 2 else order - 1)

end ChainAnchor
