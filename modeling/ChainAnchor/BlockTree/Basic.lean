import ChainAnchor.Bytes.Digest

namespace ChainAnchor

structure Block where
  hash : Hash
  height : UInt64
  time : Int64
  parent : Option Hash
  /-- The successor on the main chain; there is none at the tip and off the main chain. -/
  next : Option Hash
  deriving DecidableEq

instance : Inhabited Block := ⟨⟨Digest.zero, 0, 0, none, none⟩⟩

inductive TreeError
  /-- A parent that ought to be in the tree is missing. -/
  | corrupt
  | unknownBlock
  | duplicateBlock
  | heightAbove
  deriving DecidableEq, Repr

def TreeError.message : TreeError → String
  | corrupt => "CorruptIndex"
  | unknownBlock => "UnknownBlock"
  | duplicateBlock => "DuplicateBlock"
  | heightAbove => "InvalidHeight"

/-- All known blocks, and the orphans with the parents that they wait for.  What changes the tree
gives its result and the tree after it, also when it fails. -/
structure BlockTree where
  blocks : Std.ExtTreeMap Hash Block
  /-- The parents of the orphans. -/
  orphans : Std.ExtTreeMap Hash Hash
  genesis : Hash
  best : Hash

namespace BlockTree

def withGenesis (h : Hash) (time : Int64) : BlockTree :=
  ⟨(∅ : Std.ExtTreeMap Hash Block).insert h ⟨h, 0, time, none, none⟩, ∅, h, h⟩

def get? (t : BlockTree) (h : Hash) : Option Block := t.blocks[h]?

def contains (t : BlockTree) (h : Hash) : Bool := t.blocks.contains h

def size (t : BlockTree) : Nat := t.blocks.size

def genesisBlock (t : BlockTree) : Block := (t.get? t.genesis).getD default

def bestBlock (t : BlockTree) : Block := (t.get? t.best).getD default

def bestHeight (t : BlockTree) : UInt64 := t.bestBlock.height

/-- Adds a block to a parent in the tree; the main chain stays as it is. -/
def insert (t : BlockTree) (h parent : Hash) (time : Int64) : Except TreeError Unit × BlockTree :=
  if t.contains h then (.error .duplicateBlock, t)
  else match t.get? parent with
    | none => (.error .unknownBlock, t)
    | some p => (.ok (),
      { t with
        blocks := t.blocks.insert h ⟨h, p.height + 1, time, some parent, none⟩
        orphans := t.orphans.erase h })

def parent? (t : BlockTree) (b : Block) : Option Block := b.parent.bind t.get?

def parentOf (t : BlockTree) (b : Block) : Except TreeError Block :=
  match t.parent? b with
  | none => .error .corrupt
  | some p => .ok p

/-- Follows parents until a height is reached, in a number of steps that suffices where each parent
is one below. -/
def descend (t : BlockTree) (height : UInt64) : Nat → Block → Except TreeError Block
  | 0, b => .ok b
  | steps + 1, b =>
    if height < b.height then
      match t.parentOf b with
      | .error e => .error e
      | .ok p => t.descend height steps p
    else .ok b

def ancestor (t : BlockTree) (h : Hash) (height : UInt64) : Except TreeError Block :=
  match t.get? h with
  | none => .error .unknownBlock
  | some b =>
    if b.height < height then .error .heightAbove
    else t.descend height (b.height.toNat - height.toNat) b

end BlockTree

end ChainAnchor
