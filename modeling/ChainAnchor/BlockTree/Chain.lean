import ChainAnchor.BlockTree.MainChain

namespace ChainAnchor

inductive ChainError
  | tree (cause : TreeError)
  | refused
  deriving DecidableEq, Repr

def ChainError.message : ChainError → String
  | tree e => "BlockIndex(" ++ e.message ++ ")"
  | refused => "Rejected(\"reorganization refused\")"

structure Chain where
  tree : BlockTree
  refuses : Bool

namespace Chain

def setBest (c : Chain) (h : Hash) : Except ChainError Unit × Chain :=
  if c.refuses then (.error .refused, c)
  else match c.tree.setBest h with
    | (.error e, t) => (.error (.tree e), { c with tree := t })
    | (.ok (), t) => (.ok (), { c with tree := t })

/-- Switches to a block unless it is on the main chain. -/
def reach (c : Chain) (h : Hash) : Except ChainError Unit × Chain :=
  if c.tree.isOnMain h then (.ok (), c) else c.setBest h

end Chain

end ChainAnchor
