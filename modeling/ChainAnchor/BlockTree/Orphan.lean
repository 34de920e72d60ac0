import ChainAnchor.BlockTree.Basic

namespace ChainAnchor.BlockTree

def addOrphan (t : BlockTree) (h parent : Hash) : BlockTree :=
  if t.contains h then t else { t with orphans := t.orphans.insert h parent }

def isOrphan (t : BlockTree) (h : Hash) : Bool := t.orphans.contains h

/-- Goes from orphan to orphan for a number of steps at most. -/
def climb? (t : BlockTree) : Nat → Hash → Option Hash
  | steps, h => match t.orphans[h]? with
    | none => some h
    | some parent =>
      if t.isOrphan parent then
        match steps with
        | 0 => none
        | steps + 1 => t.climb? steps parent
      else some h

/-- The oldest orphan that a block leads to; orphans that wait for one another have none. -/
def orphanRoot? (t : BlockTree) (h : Hash) : Option Hash := t.climb? t.orphans.size h

/-- The block that has to arrive first before an orphan can be connected. -/
def awaited? (t : BlockTree) (h : Hash) : Option Hash :=
  (t.orphanRoot? h).bind fun root ↦ t.orphans[root]?

/-- The block to ask for in order to connect one; there is none where orphans wait for one another.
-/
def wanted? (t : BlockTree) (h : Hash) : Option Hash :=
  (t.orphanRoot? h).map fun root ↦ t.orphans[root]?.getD h

end ChainAnchor.BlockTree
