import ChainAnchor.Proofs.Codec.Wire
import ChainAnchor.Proofs.Ecdsa.Der
import ChainAnchor.Proofs.Ecdsa.Nonce
import ChainAnchor.Proofs.Ecdsa.Signature

namespace ChainAnchor

open Curve

theorem Notice.ofWire_toWire_of (h : Hash) :
    codec.ofWire (codec.toWire (of h)) = .ok (of h) := by
  have hlength := Codec.length_toWire_notice (of h)
  rw [Codec.exact_notice.ofWire_toWire trivial (by rw [hlength]; decide), hlength,
    if_pos (by decide)]

namespace Checkpoint

variable {c d : Checkpoint} {master : PublicKey} {h : Hash}

theorem isNull_default : (default : Checkpoint).isNull = true := by decide +kernel

/-- Signed by the master key, and known to say what the payload says. -/
structure Genuine (master : PublicKey) (c : Checkpoint) : Prop where
  signature : master.verify (Sha256.double c.payload) c.signature = true
  payload : Notice.codec.ofWire c.payload = .ok c.notice

theorem genuine_of_check (hc : c.check master = .ok d) :
    d.Genuine master ∧ d = { c with notice := d.notice } := by
  rw [check] at hc
  split at hc
  · cases hc
  split at hc
  · cases hc
  next hs =>
    split at hc
    · cases hc
    next notice hn =>
      cases hc
      exact ⟨⟨by simpa using hs, hn⟩, rfl⟩

theorem Genuine.check (hg : c.Genuine master) (hm : master.isFullyValid = true) :
    c.check master = .ok c := by
  rw [Checkpoint.check, hm, hg.signature]
  simp only [Bool.true_eq_false, if_false, hg.payload]

theorem eq_of_check_sign {k : PrivateKey} (hs : (new h).sign k = .ok c)
    (hc : c.check master = .ok d) : d = c := by
  obtain ⟨hg, hd⟩ := genuine_of_check hc
  have hn : c.notice = .of h ∧ c.payload = Notice.codec.toWire (.of h) := by
    rw [sign] at hs
    split at hs
    · cases hs
    · cases hs
      exact ⟨rfl, rfl⟩
  have hp := hg.payload
  rw [hd] at hp ⊢
  rw [hn.2, Notice.ofWire_toWire_of, ← hn.1] at hp
  exact congrArg (fun n ↦ { c with notice := n }) (Except.ok.inj hp).symm

theorem block_of_sign {k : PrivateKey} (hs : (new h).sign k = .ok c) : c.block = h := by
  rw [sign] at hs
  split at hs
  · cases hs
  · cases hs
    rfl

def endorsement (h : Hash) : Bytes :=
  ((Signature.make? 1 (Signature.scalarOf h) 1).map Der.encode).getD []

def endorsed (h : Hash) : Checkpoint :=
  { new h with signature := endorsement (Sha256.double (new h).payload) }

def endorser : PublicKey := PublicKey.ofPoint false Point.generator

theorem check_endorsed (h : Hash)
    (hm : Signature.makes 1 (Signature.scalarOf (Sha256.double (new h).payload)) 1 = true) :
    (endorsed h).check endorser = .ok (endorsed h) := by
  obtain ⟨sig, hs⟩ := Signature.exists_make?_of_makes hm
  obtain ⟨⟨nonce, hsolves⟩, hlow⟩ := Signature.exists_solves_of_make? hs
  have hb : (endorsed h).signature = Der.encode sig := by
    rw [endorsed, endorsement, hs]
    rfl
  have hp : endorser.point? = some Point.generator := by decide +kernel
  have hone : Point.multiply (1 : Scalar).val Point.generator = Point.generator := by
    decide +kernel
  have hv : endorser.verify (Sha256.double (new h).payload) (endorsed h).signature = true := by
    rw [PublicKey.verify, hp, hb, Der.decode?_encode]
    dsimp only
    rw [Signature.normalize_of_low hlow]
    exact hone ▸ hsolves.verify hlow
  exact Genuine.check ⟨hv, Notice.ofWire_toWire_of h⟩ (by decide +kernel)

end Checkpoint

end ChainAnchor
