import ChainAnchor.Proofs.BlockTree.Waiting
import ChainAnchor.Proofs.Node.Run

namespace ChainAnchor.Node

variable {n m : Node} {c d : Checkpoint} {sender : Option PeerId} {e : Event} {es es' : List Event}

theorem process?_eq_some_iff {r : Except AnchorError Bool × Node} :
    n.process? c sender = some r ↔ n.answers c sender = true ∧ n.process c sender = r := by
  rw [process?]
  split
  next ha => rw [Option.some_inj, and_iff_right ha]
  next ha => exact ⟨nofun, fun hr ↦ (ha hr.1).elim⟩

theorem isSome_process? (n : Node) (c : Checkpoint) (sender : Option PeerId) :
    (n.process? c sender).isSome = n.answers c sender := by
  rw [process?]
  cases n.answers c sender <;> rfl

theorem answers_of_known (hd : c.check n.anchor.network.masterKey = .ok d)
    (hc : n.tree.contains d.block = true) (sender : Option PeerId) : n.answers c sender = true := by
  rw [answers, hd]
  dsimp only
  rw [hc, Bool.true_or, Bool.true_or]

/-- While its block is missing a checkpoint is answered if nobody is to be asked for the block, or
if it leads to no orphans that wait for one another. -/
theorem answers_iff_of_unknown (hd : c.check n.anchor.network.masterKey = .ok d)
    (hc : n.tree.contains d.block = false) :
    n.answers c sender = true ↔ sender = none ∨ ¬n.tree.Circular d.block := by
  rw [answers, hd]
  dsimp only
  rw [hc, Bool.false_or, Bool.or_eq_true, Option.isNone_iff_eq_none,
    BlockTree.isSome_wanted?_iff]

end ChainAnchor.Node
