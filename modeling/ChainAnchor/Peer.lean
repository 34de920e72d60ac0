import ChainAnchor.Checkpoint

namespace ChainAnchor

inductive Message
  | checkpoint (c : Checkpoint)
  /-- Asks for the blocks after one up to another. -/
  | blocks (start stop : Hash)
  | data (wanted : List Hash)
  deriving DecidableEq

structure Peer where
  queue : List Message
  connected : Bool
  /-- The block of the last checkpoint sent. -/
  known : Hash
  deriving DecidableEq

namespace Peer

def new : Peer := ⟨[], true, Digest.zero⟩

instance : Inhabited Peer := ⟨new⟩

/-- Queues a message, which is lost once the peer is gone. -/
def push (p : Peer) (m : Message) : Peer :=
  if p.connected then { p with queue := p.queue ++ [m] } else p

def drain (p : Peer) : List Message × Peer := (p.queue, { p with queue := [] })

def disconnect (p : Peer) : Peer := { p with queue := [], connected := false }

/-- Sends a checkpoint unless the peer already has it; says whether it did. -/
def relay (p : Peer) (c : Checkpoint) : Bool × Peer :=
  if p.known = c.block then (false, p)
  else (true, { p with known := c.block }.push (.checkpoint c))

end Peer

abbrev PeerId := UInt64

abbrev Peers := Std.ExtTreeMap PeerId Peer

namespace Peers

def peer (ps : Peers) (id : PeerId) : Peer := ps.getD id .new

def update (ps : Peers) (id : PeerId) (f : Peer → Peer) : Peers := ps.insert id (f (peer ps id))

def push (ps : Peers) (id : PeerId) (m : Message) : Peers := update ps id (·.push m)

def relay (ps : Peers) (ids : List PeerId) (c : Checkpoint) : Peers :=
  ids.foldl (fun ps id ↦ update ps id fun p ↦ (p.relay c).2) ps

end Peers

end ChainAnchor
