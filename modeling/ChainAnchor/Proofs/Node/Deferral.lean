import ChainAnchor.Proofs.Node.Answering
import ChainAnchor.Proofs.Node.Authenticity

namespace ChainAnchor

namespace Anchor

variable {a a' : Anchor} {t : BlockTree} {c : Checkpoint} {h x : Hash}
  {r : Except AnchorError Bool}

theorem forget_of_unpending (hp : a.pending = none) (hm : a.pendingMessage = default) :
    a.forget = a := by
  rw [forget, ← hp, ← hm]

theorem validate_postpone (hv : a.validate t x = (r, a')) :
    (a.postpone h c).validate t x = (r, a'.postpone h c) := by
  have hc : (a.postpone h c).current = a.current := rfl
  rw [validate] at hv ⊢
  rw [hc]
  split at hv <;> cases hv <;> rfl

end Anchor

namespace Node

variable {n m : Node} {c d : Checkpoint} {w : Network}

/-- The nodes differ in no more than what is queued for their peers. -/
structure Alike (n m : Node) : Prop where
  anchor : n.anchor = m.anchor
  chain : n.chain = m.chain
  journal : n.journal = m.journal

theorem await_alike (n : Node) (c : Checkpoint) (sender : Option PeerId) :
    (n.await c sender).Alike { n with anchor := n.anchor.postpone c.block c } :=
  have hk := n.await_kept c sender
  ⟨n.await_anchor c sender, hk.chain, hk.journal⟩

theorem Alike.run_grow (hk : n.Alike m) (es : List BlockTree.Event) :
    (n.run (es.map .grow)).Alike (m.run (es.map .grow)) := by
  have ht : n.tree = m.tree := congrArg Chain.tree hk.chain
  rw [Node.run_grow, Node.run_grow, ht, hk.chain]
  exact ⟨hk.anchor, rfl, hk.journal⟩

/-- Where nothing waits, accepting a checkpoint from the pending slot is processing it. -/
theorem alike_of_postponed (hp : n.anchor.pending = none) (hm : n.anchor.pendingMessage = default)
    (hr : n.Reliable) (hs : n.tree.Sound) (hd : c.check n.anchor.network.masterKey = .ok d)
    (hc : n.tree.contains d.block = true)
    (hk : m.Alike { n with anchor := n.anchor.postpone d.block d }) (ids : List PeerId)
    (sender : Option PeerId) :
    (m.acceptPending ids).2.Alike (n.process c sender).2 := by
  obtain ⟨a, ch, j, ps⟩ := m
  obtain ⟨rfl, rfl, rfl⟩ := hk
  have hc' : (Node.mk (n.anchor.postpone d.block d) n.chain n.journal ps).tree.contains d.block :=
    hc
  have hf := n.anchor.validate_retains n.tree d.block
  rcases hv : n.anchor.validate n.tree d.block with ⟨r, a⟩
  rw [hv] at hf
  have ha : a.forget = a :=
    Anchor.forget_of_unpending (hf.pending.trans hp) (hf.pendingMessage.trans hm)
  have hvn : n.validate d.block = (r, { n with anchor := a }) := by rw [validate, hv]
  have hvm : (Node.mk (n.anchor.postpone d.block d) n.chain n.journal ps).validate d.block =
      (r, ⟨a.postpone d.block d, n.chain, n.journal, ps⟩) := by
    have ht : (Node.mk (n.anchor.postpone d.block d) n.chain n.journal ps).tree = n.tree := rfl
    rw [validate, ht, Anchor.validate_postpone hv]
  obtain ⟨ch, j, hch, hj⟩ := hr.exists_adopt hs hc
  have hpm : (n.anchor.postpone d.block d).pending = some d.block := rfl
  rw [acceptPending, process]
  simp only [hpm, hd, hc, hc', Bool.not_true, Bool.false_eq_true, if_false]
  -- a block that does not go further up leaves only the mark of the judgement behind
  rcases r with e | - | - <;> simp only [hvn, hvm]
  · exact ⟨ha, rfl, rfl⟩
  · exact ⟨ha, rfl, rfl⟩
  · simp only [adopt, reach, write, hch, hj, promote]
    split <;> exact ⟨rfl, rfl, rfl⟩

/-- Whether a checkpoint arrives before its block or after it, it leaves the same node behind, once
the block has arrived and what waits has been looked at.  Received before its block it is answered
unless its sender is asked for the block and the block leads to orphans that wait for one another;
received after it, it always is.  Heights are words, so the blocks must be fewer than the words. -/
theorem alike_of_deferred (hn : Possible w n) (hp : n.anchor.pending = none)
    (ht : n.tree.Reachable) (hr : n.Reliable) (hd : c.check w.masterKey = .ok d)
    (hu : n.tree.contains d.block = false) (es : List BlockTree.Event)
    (hs : (n.tree.run es).size < UInt64.size) (hc : (n.tree.run es).contains d.block = true)
    (sender sender' : Option PeerId) (ids : List PeerId) :
    ((n.process? c sender).isSome = true ↔ sender = none ∨ ¬n.tree.Circular d.block) ∧
      ∀ r, n.process? c sender = some r → ∃ r',
        (n.run (es.map .grow)).process? c sender' = some r' ∧
          ((r.2.run (es.map .grow)).acceptPending ids).2.Alike r'.2 := by
  have ha := hn.authentic
  rw [← ha.network] at hd
  refine ⟨?_, fun r hr' ↦ ?_⟩
  · rw [isSome_process?]
    exact answers_iff_of_unknown hd hu
  obtain ⟨-, rfl⟩ := process?_eq_some_iff.mp hr'
  have hk := (n.await_alike d sender).run_grow es
  rw [process_of_unknown hd hu]
  simp only [run_grow] at hk ⊢
  let m : Node := { n with chain := { n.chain with tree := n.tree.run es } }
  have hm : m.answers c sender' = true := answers_of_known (n := m) hd hc sender'
  refine ⟨_, process?_eq_some_iff.mpr ⟨hm, rfl⟩, ?_⟩
  exact alike_of_postponed (n := m) hp (ha.unpending hp) ⟨hr.refuses, hr.journal⟩
    ((ht.run es).sound hs) hd hc hk ids sender'

def interlude : List BlockTree.Event :=
  let h (n : Nat) : Hash := Digest.ofNatLE n
  [.insert (h 3) (h 0) 20, .setBest (h 3), .addOrphan (h 1) (h 0), .insert (h 1) (h 0) 30]

theorem alike_of_deferred_interlude :
    let c := Checkpoint.endorsed (Digest.ofNatLE 1)
    Possible .endorsing stationed ∧ stationed.anchor.pending = none ∧ stationed.tree.Reachable ∧
      stationed.Reliable ∧ c.check Network.endorsing.masterKey = .ok c ∧
      stationed.tree.contains c.block = false ∧
      (stationed.tree.run interlude).size < UInt64.size ∧
      (stationed.tree.run interlude).contains c.block = true ∧
      ∃ r r', stationed.process? c (some 5) = some r ∧
        (stationed.run (interlude.map .grow)).process? c none = some r' ∧
        ((r.2.run (interlude.map .grow)).acceptPending [6]).2.Alike r'.2 := by
  intro c
  have hn : Possible .endorsing stationed := .new ..
  have hd : c.check Network.endorsing.masterKey = .ok c :=
    Checkpoint.check_endorsed _ (by decide +kernel)
  have hu : stationed.tree.contains c.block = false := by decide +kernel
  have hs : (stationed.tree.run interlude).size < UInt64.size := by decide +kernel
  have hc : (stationed.tree.run interlude).contains c.block = true := by decide +kernel
  obtain ⟨hi, hall⟩ := alike_of_deferred hn rfl reachable_stationed reliable_stationed hd hu
    interlude hs hc (some 5) none [6]
  -- there are no orphans when the checkpoint is received
  have hcirc : ¬stationed.tree.Circular c.block :=
    BlockTree.acyclic_iff.mp (BlockTree.acyclic_withGenesis (Digest.ofNatLE 0) 0) c.block
  obtain ⟨r, hr⟩ := Option.isSome_iff_exists.mp (hi.mpr (Or.inr hcirc))
  obtain ⟨r', hr', hk⟩ := hall r hr
  exact ⟨hn, rfl, reachable_stationed, reliable_stationed, hd, hu, hs, hc, r, r', hr, hr', hk⟩

/-- A checkpoint whose block is an orphan that is its own parent is never answered when a peer sends
it before the block arrives, and is answered after that. -/
theorem not_alike_of_circular :
    let n := stationedIn [.addOrphan (Digest.ofNatLE 1) (Digest.ofNatLE 1)]
    let c := Checkpoint.endorsed (Digest.ofNatLE 1)
    let es := [BlockTree.Event.insert (Digest.ofNatLE 1) (Digest.ofNatLE 0) 30]
    Possible .endorsing n ∧ n.anchor.pending = none ∧ n.tree.Reachable ∧ n.Reliable ∧
      c.check Network.endorsing.masterKey = .ok c ∧ n.tree.contains c.block = false ∧
      (n.tree.run es).size < UInt64.size ∧ (n.tree.run es).contains c.block = true ∧
      n.process? c (some 5) = none ∧
      ∃ r, (n.run (es.map .grow)).process? c (some 5) = some r := by
  intro n c es
  have hd : c.check Network.endorsing.masterKey = .ok c :=
    Checkpoint.check_endorsed _ (by decide +kernel)
  have hu : n.tree.contains c.block = false := by decide +kernel
  have hc : (n.run (es.map .grow)).tree.contains c.block = true := by decide +kernel
  have ha : n.tree.Awaits c.block c.block := by
    rw [BlockTree.Awaits]
    decide +kernel
  refine ⟨.new .., rfl, ⟨_, _, _, rfl⟩, ⟨rfl, reliable_stationed.journal⟩, hd, hu,
    by decide +kernel, hc, ?_, _, process?_eq_some_iff.mpr ⟨answers_of_known hd hc _, rfl⟩⟩
  rw [← Option.not_isSome_iff_eq_none, isSome_process?, answers_iff_of_unknown hd hu]
  rintro (he | hcirc)
  · cases he
  · exact hcirc ⟨c.block, .refl, .single ha⟩

end Node

end ChainAnchor
