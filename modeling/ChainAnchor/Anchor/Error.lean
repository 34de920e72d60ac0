import ChainAnchor.BlockTree.Chain
import ChainAnchor.Checkpoint
import ChainAnchor.Store

namespace ChainAnchor

inductive AnchorError
  | noMasterKey
  /-- The block neither descends from the current checkpoint nor is one of its ancestors. -/
  | conflict (h : Hash)
  | corruptTree
  | unknownBlock (h : Hash)
  /-- Another block is fixed at this height. -/
  | hardened (height : UInt64)
  /-- The block does not descend from the current checkpoint. -/
  | rejected (h : Hash)
  | tree (cause : TreeError)
  | chain (cause : ChainError)
  | store (cause : StoreError)
  | key (cause : KeyError)
  /-- No hardened checkpoint is on the main chain. -/
  | resetFailed
  deriving DecidableEq

namespace AnchorError

def ofTree : TreeError → AnchorError
  | .corrupt => corruptTree
  | e => tree e

def message : AnchorError → String
  | noMasterKey => "NoMasterKey"
  | conflict h => "Conflict(" ++ h.describe "Hash256" ++ ")"
  | corruptTree => "CorruptIndex"
  | unknownBlock h => "UnknownBlock(" ++ h.describe "Hash256" ++ ")"
  | hardened height => "HardenedCheckpoint(" ++ toString height.toNat ++ ")"
  | rejected h => "Rejected(" ++ h.describe "Hash256" ++ ")"
  | tree e => "BlockIndex(" ++ e.message ++ ")"
  | chain e => "ChainState(" ++ e.message ++ ")"
  | store e => "Backend(" ++ e.message ++ ")"
  | key e => "Key(" ++ e.message ++ ")"
  | resetFailed => "ResetFailed"

end AnchorError

end ChainAnchor
