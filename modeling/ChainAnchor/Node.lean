import ChainAnchor.Anchor
import ChainAnchor.Peer
import ChainAnchor.Store.Journal

namespace ChainAnchor

/-- A node: the checkpoint state with the chain, the store and the peers that it works on.  Each
operation gives its result and the node after it, also when it fails: what was done before the
failure stays done. -/
structure Node where
  anchor : Anchor
  chain : Chain
  journal : Journal
  peers : Peers

namespace Node

def tree (n : Node) : BlockTree := n.chain.tree

def validate (n : Node) (h : Hash) : Except AnchorError Bool × Node :=
  match n.anchor.validate n.tree h with
  | (r, a) => (r, { n with anchor := a })

/-- Makes a block the checkpoint, first in the store and then in memory. -/
def write (n : Node) (h : Hash) : Except AnchorError Unit × Node :=
  match n.journal.putCheckpoint h with
  | (.error e, j) => (.error (.store e), { n with journal := j })
  | (.ok (), j) => (.ok (), { n with journal := j, anchor := { n.anchor with current := h } })

def reach (n : Node) (h : Hash) : Except AnchorError Unit × Node :=
  match n.chain.reach h with
  | (.error e, c) => (.error (.chain e), { n with chain := c })
  | (.ok (), c) => (.ok (), { n with chain := c })

/-- Brings a validated block onto the main chain and makes it the checkpoint; a chain that refuses
it marks it as invalid. -/
def adopt (n : Node) (h : Hash) : Except AnchorError Unit × Node :=
  match n.reach h with
  | (.error e, n) => (.error e, { n with anchor := { n.anchor with invalid := some h } })
  | (.ok (), n) => n.write h

def relay (n : Node) (ids : List PeerId) (c : Checkpoint) : Node :=
  { n with peers := n.peers.relay ids c }

def promote (n : Node) (ids : List PeerId) : Node :=
  let c := n.anchor.pendingMessage
  let n := { n with anchor := { n.anchor.forget with message := c } }
  if c.isNull then n else n.relay ids c

/-- Accepts the pending checkpoint if its block has arrived; says whether the checkpoint advanced.
-/
def acceptPending (n : Node) (ids : List PeerId) : Except AnchorError Bool × Node :=
  match n.anchor.pending with
  | none => (.ok false, n)
  | some h =>
    if !n.tree.contains h then (.ok false, n)
    else match n.validate h with
      | (.ok true, n) => match n.adopt h with
        | (.error e, n) => (.error e, n)
        | (.ok (), n) => (.ok true, n.promote ids)
      | (_, n) => (.ok false, { n with anchor := n.anchor.forget })

/-- Asks a peer for what leads up to a block, and for the first block that is missing.  Where the
walk to that one does not end the second request is never made. -/
def request (n : Node) (h : Hash) (peer : PeerId) : Node :=
  let ps := n.peers.push peer (.blocks n.tree.best h)
  { n with
    peers := match n.tree.wanted? h with
      | none => ps
      | some w => ps.push peer (.data [w]) }

/-- A checkpoint whose block is not known waits for it; its sender is asked for the block. -/
def await (n : Node) (c : Checkpoint) (sender : Option PeerId) : Node :=
  let n := { n with anchor := n.anchor.postpone c.block c }
  match sender with
  | none => n
  | some peer => n.request c.block peer

/-- Deals with a checkpoint that was received, or made here if there is no sender; says whether the
checkpoint advanced. -/
def process (n : Node) (c : Checkpoint) (sender : Option PeerId) : Except AnchorError Bool × Node :=
  match c.check n.anchor.network.masterKey with
  | .error _ => (.ok false, n)
  | .ok c =>
    if !n.tree.contains c.block then (.ok false, n.await c sender)
    else match n.validate c.block with
      | (.error e, n) => (.error e, n)
      | (.ok false, n) => (.ok false, n)
      | (.ok true, n) => match n.adopt c.block with
        | (.error e, n) => (.error e, n)
        | (.ok (), n) => (.ok true, { n with anchor := { n.anchor.forget with message := c } })

/-- Whether `process` returns: it does not if it asks for a block and the walk to the first one that
is missing does not end. -/
def answers (n : Node) (c : Checkpoint) (sender : Option PeerId) : Bool :=
  match c.check n.anchor.network.masterKey with
  | .error _ => true
  | .ok c => n.tree.contains c.block || sender.isNone || (n.tree.wanted? c.block).isSome

/-- The result of `process` where it returns.  Where it does not, `process` gives the node with what
has been done by then. -/
def process? (n : Node) (c : Checkpoint) (sender : Option PeerId) :
    Option (Except AnchorError Bool × Node) :=
  if n.answers c sender then some (n.process c sender) else none

def send (n : Node) (h : Hash) (ids : List PeerId) : Except AnchorError Bool × Node :=
  match n.anchor.masterKey with
  | none => (.error .noMasterKey, n)
  | some k => match (Checkpoint.new h).sign k with
    | .error e => (.error (.key e), n)
    | .ok c => match n.process c none with
      | (.error e, n) => (.error e, n)
      | (.ok false, n) => (.ok false, n)
      | (.ok true, n) => (.ok true, n.relay ids c)

/-- What follows the arrival of a block: the pending checkpoint is accepted, and the owner of the
master key sends a new one unless blocks are still missing. -/
def blockProcessed (n : Node) (ids : List PeerId) (now : Int64) : Except AnchorError Unit × Node :=
  match n.acceptPending ids with
  | (.error e, n) => (.error e, n)
  | (.ok _, n) =>
    if n.anchor.masterKey.isNone || n.tree.isCatchingUp n.anchor.network now then (.ok (), n)
    else if n.tree.selected = n.anchor.current then (.ok (), n)
    else match n.send n.tree.selected ids with
      | (.error e, n) => (.error e, n)
      | (.ok _, n) => (.ok (), n)

def reachHardened (n : Node) : Except AnchorError Unit × Node :=
  match n.anchor.network.descending with
  | [] => (.ok (), n)
  | (_, h) :: _ =>
    if n.tree.contains h then n.reach h
    else (.ok (), { n with anchor := n.anchor.postpone h default })

/-- Goes back to the highest hardened checkpoint on the main chain; says whether there is one. -/
def reset (n : Node) : Except AnchorError Bool × Node :=
  match n.reachHardened with
  | (.error e, n) => (.error e, n)
  | (.ok (), n) =>
    match n.anchor.network.descending.find? fun p ↦ n.tree.isOnMain p.2 with
    | none => (.ok false, n)
    | some (_, h) => match n.write h with
      | (.error e, n) => (.error e, n)
      | (.ok (), n) => (.ok true, n)

/-- What follows a change of the master key: on the main network the checkpoint is reset. -/
def masterKeyChanged (n : Node) : Except AnchorError Unit × Node :=
  if n.anchor.network.isTest then (.ok (), n)
  else match n.reset with
    | (.error e, n) => (.error e, n)
    | (.ok false, n) => (.error .resetFailed, n)
    | (.ok true, n) => (.ok (), n)

def checkMasterKey (n : Node) : Except AnchorError Unit × Node :=
  let key := n.anchor.network.masterKey.toHex
  match n.journal.masterKey with
  | (.error e, j) => (.error (.store e), { n with journal := j })
  | (.ok stored, j) =>
    if stored = some key then (.ok (), { n with journal := j })
    else match j.putMasterKey key with
      | (.error e, j) => (.error (.store e), { n with journal := j })
      | (.ok (), j) => { n with journal := j }.masterKeyChanged

/-- Reads the stored checkpoint; where there is none the genesis block is written. -/
def loadCheckpoint (n : Node) : Except AnchorError Unit × Node :=
  match n.journal.checkpoint with
  | (.error e, j) => (.error (.store e), { n with journal := j })
  | (.ok (some h), j) =>
    (.ok (), { n with journal := j, anchor := { n.anchor with current := h } })
  | (.ok none, j) => { n with journal := j }.write n.anchor.network.genesis

def start (w : Network) (p : Policy) (c : Chain) (j : Journal) (ps : Peers) :
    Except AnchorError Unit × Node :=
  match loadCheckpoint ⟨.new w p, c, j, ps⟩ with
  | (.error e, n) => (.error e, n)
  | (.ok (), n) => n.checkMasterKey

/-- Asks a peer for the pending block unless it is there already; says whether it did. -/
def askForPending (n : Node) (peer : PeerId) : Bool × Node :=
  match n.anchor.pending with
  | none => (false, n)
  | some h =>
    if n.tree.contains h || n.tree.isOrphan h then (false, n)
    else (true, { n with peers := n.peers.push peer (.data [h]) })

end Node

end ChainAnchor
