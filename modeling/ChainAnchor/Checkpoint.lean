import ChainAnchor.Codec.Sequence
import ChainAnchor.Key.Private

namespace ChainAnchor

structure Notice where
  version : Int32
  block : Hash
  deriving DecidableEq

namespace Notice

def currentVersion : Int32 := 1

def of (h : Hash) : Notice := ⟨currentVersion, h⟩

instance : Inhabited Notice := ⟨of Digest.zero⟩

def isNull (c : Notice) : Bool := c.block.isZero

def codec : Codec Notice :=
  (Codec.int32.pair (Codec.digest 32)).via (fun c ↦ (c.version, c.block)) fun p ↦ ⟨p.1, p.2⟩

end Notice

inductive CheckpointError
  | invalidSignature
  | invalidMasterKey
  | malformed (cause : DecodeError)
  deriving DecidableEq, Repr

def CheckpointError.message : CheckpointError → String
  | invalidSignature => "InvalidSignature"
  | invalidMasterKey => "InvalidMasterKey"
  | malformed e => "BincodeDecode(" ++ e.message ++ ")"

structure Checkpoint where
  notice : Notice
  payload : Bytes
  signature : Bytes
  deriving DecidableEq

namespace Checkpoint

instance : Inhabited Checkpoint := ⟨⟨default, [], []⟩⟩

def new (h : Hash) : Checkpoint := ⟨.of h, Notice.codec.toWire (.of h), []⟩

/-- A received checkpoint, whose payload has not been read yet. -/
def ofParts (payload signature : Bytes) : Checkpoint := ⟨default, payload, signature⟩

def block (c : Checkpoint) : Hash := c.notice.block

def isNull (c : Checkpoint) : Bool := c.notice.isNull

/-- Identifies the message, not the block. -/
def hash (c : Checkpoint) : Hash := Sha256.double (c.payload ++ c.signature)

def sign (c : Checkpoint) (k : PrivateKey) : Except KeyError Checkpoint :=
  match k.sign (Sha256.double c.payload) with
  | .error e => .error e
  | .ok sig => .ok { c with signature := sig }

/-- Reads the payload of a checkpoint that the master key has signed. -/
def check (c : Checkpoint) (master : PublicKey) : Except CheckpointError Checkpoint :=
  if master.isFullyValid = false then .error .invalidMasterKey
  else if master.verify (Sha256.double c.payload) c.signature = false then
    .error .invalidSignature
  else match Notice.codec.ofWire c.payload with
    | .error e => .error (.malformed e)
    | .ok notice => .ok { c with notice := notice }

/-- Payload and signature; what the payload says does not travel separately. -/
def codec : Codec Checkpoint :=
  (Codec.bytes.pair Codec.bytes).via (fun c ↦ (c.payload, c.signature)) fun p ↦ ofParts p.1 p.2

end Checkpoint

end ChainAnchor
