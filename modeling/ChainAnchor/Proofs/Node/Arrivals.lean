import ChainAnchor.Proofs.BlockTree.Judgement
import ChainAnchor.Proofs.Node.Answering
import ChainAnchor.Proofs.Node.Progress
import ChainAnchor.Proofs.Node.Reliable

namespace ChainAnchor

namespace Node

open BlockTree

/-- A block arrives, and the pending checkpoint is looked at, to be passed on to some peers. -/
structure Arrival where
  hash : Hash
  parent : Hash
  time : Int64
  peers : List PeerId

namespace Arrival

def insertion (x : Arrival) : BlockTree.Event := .insert x.hash x.parent x.time

def events (x : Arrival) : List Event := [.grow x.insertion, .acceptPending x.peers]

end Arrival

variable {n m : Node} {t : BlockTree} {x : Arrival} {xs rest pre mid post : List Arrival} {h : Hash}
  {c c' d d' : Checkpoint} {sender sender' : Option PeerId}

def arrivals (xs : List Arrival) : List Event := xs.flatMap Arrival.events

def grown (n : Node) (xs : List Arrival) : BlockTree := n.tree.run (xs.map Arrival.insertion)

def arrive (n : Node) (x : Arrival) : Node := ((n.grow x.insertion).acceptPending x.peers).2

theorem relinked_run {t t' : BlockTree} (hr : t.Relinked t') (xs : List Arrival) :
    (t.run (xs.map Arrival.insertion)).Relinked (t'.run (xs.map Arrival.insertion)) := by
  induction xs generalizing t t' with
  | nil => exact hr
  | cons x xs ih => exact ih (hr.insert x.hash x.parent x.time)

/-- The blocks that have not arrived yet lead to a tree, whichever tip it has. -/
structure Underway (t : BlockTree) (rest : List Arrival) (n : Node) : Prop where
  reliable : n.Reliable
  reachable : n.tree.Reachable
  ahead : (n.grown rest).Relinked t

namespace Underway

theorem grows (hu : Underway t rest n) : n.tree.Extends t :=
  (run_extends n.tree _).trans hu.ahead.extends

theorem size_lt (hu : Underway t rest n) (ht : t.size < UInt64.size) :
    (n.grown rest).size < UInt64.size := by
  rw [← hu.ahead.size_eq]
  exact ht

theorem sound (hu : Underway t rest n) (ht : t.size < UInt64.size) : n.tree.Sound :=
  hu.reachable.sound (Nat.lt_of_le_of_lt (size_le_run ..) (hu.size_lt ht))

theorem rooted (hu : Underway t rest n) (ht : t.size < UInt64.size) : t.Rooted :=
  ((hu.reachable.run _).sound (hu.size_lt ht)).toRooted.relinked hu.ahead

theorem of_switched (hu : Underway t rest n) (hm : m.Reliable) (hs : n.tree.Switched m.tree) :
    Underway t rest m :=
  ⟨hm, hs.reachable hu.reachable, (relinked_run hs.relinked.symm rest).trans hu.ahead⟩

theorem grow (hu : Underway t (x :: rest) n) : Underway t rest (n.grow x.insertion) :=
  ⟨⟨hu.reliable.refuses, hu.reliable.journal⟩, hu.reachable.apply x.insertion, hu.ahead⟩

theorem acceptPending (hu : Underway t rest n) (ids : List PeerId) :
    Underway t rest (n.acceptPending ids).2 := by
  have ha := n.acceptPending_outcome ids
  exact hu.of_switched (ha.reliable hu.reliable) ha.forward.tree

theorem process (hu : Underway t rest n) (c : Checkpoint) (sender : Option PeerId) :
    Underway t rest (n.process c sender).2 := by
  have hp := n.process_outcome c sender
  exact hu.of_switched (hp.reliable hu.reliable) hp.forward.tree

/-- What each arrival preserves, any number of them preserve. -/
theorem run {P : Node → Prop}
    (hP : ∀ ⦃x rest n⦄, Underway t (x :: rest) n → P n → P (n.arrive x))
    (hu : Underway t (xs ++ rest) n) (hn : P n) :
    Underway t rest (n.run (arrivals xs)) ∧ P (n.run (arrivals xs)) := by
  induction xs generalizing n with
  | nil => exact ⟨hu, hn⟩
  | cons x xs ih => exact ih (hu.grow.acceptPending x.peers) (hP hu hn)

theorem strictAncestor_of_judge (hu : Underway t rest n)
    (hj : Anchor.judge n.tree n.anchor.current h = .ok true) :
    t.StrictAncestor n.anchor.current h :=
  hu.grows.strictAncestor (rises_of_judge hu.reachable.keyed hj).strictAncestor

/-- Where the checkpoint is an ancestor of a block, the judgement on the block is that it descends
from the checkpoint, unless it is the checkpoint. -/
theorem judge (hu : Underway t rest n) (ht : t.size < UInt64.size)
    (hc : n.tree.contains h = true) (ha : t.Ancestor n.anchor.current h) :
    (n.anchor.current ≠ h ∧ Anchor.judge n.tree n.anchor.current h = .ok true) ∨
      (n.anchor.current = h ∧ Anchor.judge n.tree n.anchor.current h = .ok false) := by
  have hr := (hu.sound ht).toRooted
  by_cases he : n.anchor.current = h
  · refine Or.inr ⟨he, ?_⟩
    rw [he]
    exact hr.judge_of_ancestor .refl hc
  · have hs := hr.strictAncestor_of_extends hu.grows hc (.of_ne ha he)
    exact Or.inl ⟨he, hr.judge_of_strictAncestor hs hc⟩

end Underway

end Node

end ChainAnchor
