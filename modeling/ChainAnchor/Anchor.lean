import ChainAnchor.Anchor.Error
import ChainAnchor.BlockTree.Orphan
import ChainAnchor.Checkpoint.Policy

namespace ChainAnchor

inductive Status
  | start
  | pending (h : Hash)
  | accepted (h : Hash)
  | invalid (h : Hash)
  deriving DecidableEq

inductive Warning
  | inconsistent
  | tooOld
  | violated
  deriving DecidableEq, Repr

def Warning.message : Warning → String
  | inconsistent =>
    "WARNING: Inconsistent checkpoint found! Stop enforcing checkpoints and notify developers " ++
      "to resolve the issue."
  | tooOld =>
    "WARNING: Checkpoint is too old. Wait for block chain to download, or notify developers."
  | violated => "syncronized checkpoint violation detected, but skipped!"

structure Anchor where
  network : Network
  policy : Policy
  /-- The block of the accepted checkpoint. -/
  current : Hash
  /-- A block that is a checkpoint as soon as it arrives. -/
  pending : Option Hash
  /-- A block that conflicts with an accepted checkpoint. -/
  invalid : Option Hash
  message : Checkpoint
  pendingMessage : Checkpoint
  masterKey : Option PrivateKey
  /-- Whether a block was accepted although it does not descend from the checkpoint. -/
  violated : Bool

namespace Anchor

def new (w : Network) (p : Policy) : Anchor where
  network := w
  policy := p
  current := w.genesis
  pending := none
  invalid := none
  message := default
  pendingMessage := default
  masterKey := none
  violated := false

def status (a : Anchor) : Status :=
  match a.invalid, a.pending with
  | some h, _ => .invalid h
  | none, some h => .pending h
  | none, none => if a.current = a.network.genesis then .start else .accepted a.current

def currentBlock (a : Anchor) (t : BlockTree) : Except AnchorError Block :=
  match t.get? a.current with
  | none => .error (.unknownBlock a.current)
  | some b => .ok b

/-- Whether a block strictly descends from the current checkpoint, which has to be its ancestor or
its descendant. -/
def judge (t : BlockTree) (current h : Hash) : Except AnchorError Bool :=
  match t.get? current, t.get? h with
  | none, _ => .error (.unknownBlock current)
  | some _, none => .error (.unknownBlock h)
  | some c, some b =>
    if b.height ≤ c.height then
      match t.ancestor current b.height with
      | .error e => .error (.ofTree e)
      | .ok x => if x.hash = h then .ok false else .error (.conflict h)
    else
      match t.ancestor h c.height with
      | .error e => .error (.ofTree e)
      | .ok x => if x.hash = current then .ok true else .error (.conflict h)

/-- The judgement on a block, with a note of it if it conflicts. -/
def validate (a : Anchor) (t : BlockTree) (h : Hash) : Except AnchorError Bool × Anchor :=
  match judge t a.current h with
  | .error (.conflict x) => (.error (.conflict x), { a with invalid := some h })
  | r => (r, a)

/-- Whether a block may follow its parent as far as the checkpoint goes. -/
def permits (a : Anchor) (t : BlockTree) (h parent : Hash) (catchingUp : Bool) : Bool :=
  if !a.network.enforces then true
  else match t.get? parent with
    | none => false
    | some p =>
      let height := p.height + 1
      if catchingUp then
        match t.get? t.selected with
        | none => false
        | some b => b.height < height
      else match t.get? a.current with
        | none => false
        | some c =>
          if c.height < height then
            match t.ancestor parent c.height with
            | .error _ => false
            | .ok x => x.hash = a.current
          else if height = c.height then h = a.current
          else t.contains h

/-- Decides on a new block by the hardened checkpoints, the current one and the policy. -/
def accept (a : Anchor) (t : BlockTree) (h parent : Hash) (catchingUp : Bool) :
    Except AnchorError Unit × Anchor :=
  match t.get? parent with
  | none => (.error (.unknownBlock parent), a)
  | some p =>
    let height := p.height + 1
    if !a.network.admits height h then (.error (.hardened height), a)
    else if a.permits t h parent catchingUp then (.ok (), a)
    else match a.policy with
      | .strict => (.error (.rejected h), a)
      | .advisory => (.ok (), { a with violated := true })
      | .permissive => (.ok (), a)

/-- Whether a block is pending or has to arrive before the pending one; there is no answer where the
walk from the pending block to that one does not end. -/
def wants? (a : Anchor) (t : BlockTree) (h : Hash) : Option Bool :=
  match a.pending with
  | none => some false
  | some p =>
    if h = p then some true
    else if t.isOrphan p then (t.awaited? p).map (decide <| · = h)
    else some false

def wants (a : Anchor) (t : BlockTree) (h : Hash) : Bool := a.wants? t h == some true

/-- A checkpoint becomes pending in place of any other. -/
def postpone (a : Anchor) (h : Hash) (c : Checkpoint) : Anchor :=
  { a with pending := some h, pendingMessage := c }

def forget (a : Anchor) : Anchor := { a with pending := none, pendingMessage := default }

/-- Takes the key to sign checkpoints with, after a test signature; it is taken even if it does not
belong to the master key. -/
def setMasterKey (a : Anchor) (secret : String) : Except AnchorError Unit × Anchor :=
  match PrivateKey.ofHex secret a.network.masterKey.isCompressed with
  | .error e => (.error (.key e), a)
  | .ok k => match (Checkpoint.new a.network.genesis).sign k with
    | .error e => (.error (.key e), a)
    | .ok _ => (.ok (), { a with masterKey := some k })

def isMature (a : Anchor) (t : BlockTree) (now : Int64) : Bool :=
  match t.get? a.current with
  | none => false
  | some b => b.height + Rules.maturity ≤ t.bestHeight || b.time + Rules.stakeMinAge < now

def isOlderThan (a : Anchor) (t : BlockTree) (seconds now : Int64) : Bool :=
  match t.get? a.current with
  | none => false
  | some b => b.time + seconds < now

def warning? (a : Anchor) (t : BlockTree) (now : Int64) : Option Warning :=
  if a.invalid.isSome then some .inconsistent
  else if !a.network.isTest && !t.isCatchingUp a.network now &&
      a.isOlderThan t Rules.checkpointTooOld now then
    some .tooOld
  else if a.violated then some .violated
  else none

end Anchor

end ChainAnchor
