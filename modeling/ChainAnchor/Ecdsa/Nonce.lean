import ChainAnchor.Ecdsa.Signature
import ChainAnchor.Hash.Hmac

namespace ChainAnchor

open Curve

namespace Nonce

structure State where
  key : Digest 32
  value : Digest 32

def State.mix (s : State) (data : Bytes) : State :=
  let key := Hmac.sha256 s.key.bytes (s.value.bytes ++ data)
  ⟨key, Hmac.sha256 key.bytes s.value.bytes⟩

/-- The digest enters as the scalar that is signed. -/
def start (secret : Digest 32) (z : Scalar) : State :=
  let seed := secret.bytes ++ Bytes.ofNatBE 32 z.val
  let s : State := ⟨Digest.zero, ⟨List.replicate 32 1, rfl⟩⟩
  (s.mix (0 :: seed)).mix (1 :: seed)

def scalar? (value : Digest 32) : Option Scalar :=
  let n := Bytes.toNatBE value.bytes
  if h : n < order then if n = 0 then none else some ⟨n, h⟩ else none

/-- How many candidates are tried before signing is given up. -/
def attempts : Nat := 0x100000000

/-- Tries candidates until one makes a signature. -/
def search (secret z : Scalar) : Nat → State → Option Signature
  | 0, _ => none
  | k + 1, s =>
    let value := Hmac.sha256 s.key.bytes s.value.bytes
    match (scalar? value).bind (Signature.make? secret z) with
    | some sig => some sig
    | none => search secret z k (State.mix ⟨s.key, value⟩ [0])

end Nonce

def Signature.sign? (secret : Digest 32) (h : Hash) : Option Signature :=
  let z := scalarOf h
  Nonce.search (Fin.ofNat order (Bytes.toNatBE secret.bytes)) z Nonce.attempts
    (Nonce.start secret z)

end ChainAnchor
