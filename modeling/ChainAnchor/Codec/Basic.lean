import ChainAnchor.Codec.Reader

namespace ChainAnchor

/-- Storage packs integers into as few bytes as they need and ignores what follows a value; the wire
gives each type of integer one width and refuses trailing bytes. -/
inductive Format
  | storage
  | wire
  deriving DecidableEq, Repr

def Format.limit : Format → Nat
  | .storage => 1000000
  | .wire => 32000

structure Codec (α : Type) where
  encode : Format → α → Bytes
  decode : Format → Decoder α

namespace Codec

variable {α β : Type}

/-- The codec of a type whose values are written as those of another. -/
def via (c : Codec α) (there : β → α) (back : α → β) : Codec β where
  encode f b := c.encode f (there b)
  decode f := (c.decode f).map back

def pair (a : Codec α) (b : Codec β) : Codec (α × β) where
  encode f p := a.encode f p.1 ++ b.encode f p.2
  decode f := (a.decode f).andThen fun x ↦ (b.decode f).map fun y ↦ (x, y)

def store (c : Codec α) (a : α) : Bytes := c.encode .storage a

/-- Reads a stored value; bytes after it are ignored. -/
def load (c : Codec α) (b : Bytes) : Except DecodeError α :=
  match c.decode .storage ⟨b, Format.storage.limit⟩ with
  | .error e => .error e
  | .ok (a, _) => .ok a

def toWire (c : Codec α) (a : α) : Bytes := c.encode .wire a

/-- Reads a payload, which must hold nothing else. -/
def ofWire (c : Codec α) (b : Bytes) : Except DecodeError α :=
  match c.decode .wire ⟨b, Format.wire.limit⟩ with
  | .error e => .error e
  | .ok (a, r) => if r.rest.isEmpty then .ok a else .error .trailingBytes

end Codec

end ChainAnchor
