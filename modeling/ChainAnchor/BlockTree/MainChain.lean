import ChainAnchor.BlockTree.Basic
import ChainAnchor.Network
import ChainAnchor.Network.Rules

namespace ChainAnchor.BlockTree

def isOnMain (t : BlockTree) (h : Hash) : Bool :=
  match t.get? h with
  | none => false
  | some b => b.next.isSome || b.hash = t.best

/-- Walks from a block down to the main chain, in a bounded number of steps: the block where they
meet, and the blocks above it in the order of their heights. -/
def branch (t : BlockTree) : Nat → Hash → List Hash → Except TreeError (Hash × List Hash)
  | steps, h, above =>
    if t.isOnMain h then .ok (h, above)
    else match steps, (t.get? h).bind Block.parent with
      | steps + 1, some parent => t.branch steps parent (h :: above)
      | _, _ => .error .corrupt

def setNext (t : BlockTree) (h : Hash) (next : Option Hash) : Except TreeError Unit × BlockTree :=
  match t.get? h with
  | none => (.error .corrupt, t)
  | some b => (.ok (), { t with blocks := t.blocks.insert h { b with next := next } })

def unlink (fork : Hash) : Nat → Hash → BlockTree → Except TreeError Unit × BlockTree
  | steps, h, t =>
    if h = fork then (.ok (), t)
    else match t.setNext h none with
      | (.error e, t) => (.error e, t)
      | (.ok (), t) => match steps, (t.get? h).bind Block.parent with
        | steps + 1, some parent => unlink fork steps parent t
        | _, _ => (.error .corrupt, t)

def link : Hash → List Hash → BlockTree → Except TreeError Unit × BlockTree
  | _, [], t => (.ok (), t)
  | h, child :: above, t =>
    match t.setNext h (some child) with
    | (.error e, t) => (.error e, t)
    | (.ok (), t) => link child above t

/-- Switches the main chain to a tip, from the block where its branch leaves the old main chain. -/
def setBest (t : BlockTree) (h : Hash) : Except TreeError Unit × BlockTree :=
  match t.get? h with
  | none => (.error .unknownBlock, t)
  | some b => match t.branch b.height.toNat h [] with
    | .error e => (.error e, t)
    | .ok (fork, above) => match unlink fork t.bestHeight.toNat t.best t with
      | (.error e, t) => (.error e, t)
      | (.ok (), t) => match t.setNext fork none with
        | (.error e, t) => (.error e, t)
        | (.ok (), t) => match link fork above t with
          | (.error e, t) => (.error e, t)
          | (.ok (), t) => (.ok (), { t with best := h })

def ofNetwork (w : Network) : BlockTree := withGenesis w.genesis w.genesisTime

/-- Whether the tip is lower or older than it would be if no blocks were missing. -/
def isCatchingUp (t : BlockTree) (w : Network) (now : Int64) : Bool :=
  t.bestHeight < w.expectedHeight || t.bestBlock.time < now - Rules.maxTipAge

def lastHardened? (t : BlockTree) (w : Network) : Option Block :=
  w.descending.findSome? fun p ↦ t.get? p.2

/-- A block is close to the tip if it is younger or higher than a checkpoint may be. -/
def isClose (tip b : Block) : Bool :=
  tip.time < b.time + Rules.checkpointMaxSpan || tip.height < b.height + Rules.checkpointSpan

/-- The first block on the way down from another that is not close to the tip, else the last one. -/
def firstLagging (t : BlockTree) (tip : Block) : Nat → Block → Block
  | 0, b => b
  | steps + 1, b => match t.parent? b with
    | none => b
    | some p => if isClose tip b then t.firstLagging tip steps p else b

/-- The block that is fit to be the next checkpoint. -/
def selected (t : BlockTree) : Hash :=
  (t.firstLagging t.bestBlock t.bestHeight.toNat t.bestBlock).hash

end ChainAnchor.BlockTree
