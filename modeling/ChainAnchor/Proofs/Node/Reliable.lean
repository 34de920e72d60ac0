import ChainAnchor.Proofs.BlockTree.Size
import ChainAnchor.Proofs.Checkpoint.Genuine
import ChainAnchor.Proofs.Node.Progress
import ChainAnchor.Proofs.Store.Journal

namespace ChainAnchor

open BlockTree

theorem Chain.reach_refuses (c : Chain) (h : Hash) : (c.reach h).2.refuses = c.refuses := by
  rw [reach, setBest]
  split
  · rfl
  split
  · rfl
  · rcases c.tree.setBest h with ⟨e | u, t⟩ <;> rfl

theorem Chain.exists_reach {c : Chain} {h : Hash} (hc : c.refuses = false) (hs : c.tree.Sound)
    (hh : c.tree.contains h = true) : ∃ c', c.reach h = (.ok (), c') := by
  obtain ⟨t, ht, -⟩ := hs.exists_setBest hh
  rw [reach, setBest, hc]
  simp only [Bool.false_eq_true, if_false, ht]
  split <;> exact ⟨_, rfl⟩

namespace Node

variable {n m : Node} {h : Hash}

structure Reliable (n : Node) : Prop where
  refuses : n.chain.refuses = false
  journal : n.journal.Reliable

theorem Reliable.exists_adopt (hn : n.Reliable) (hs : n.tree.Sound)
    (hh : n.tree.contains h = true) : ∃ c j, n.chain.reach h = (.ok (), c) ∧
      n.journal.putCheckpoint h = (.ok (), j) := by
  obtain ⟨c, hc⟩ := Chain.exists_reach hn.refuses hs hh
  obtain ⟨j, hj, -⟩ := hn.journal.exists_put Journal.checkpointKey ((Codec.digest 32).store h)
  exact ⟨c, j, hc, hj⟩

theorem Adoption.reliable {r : Except AnchorError Unit} (ha : n.Adoption h (r, m))
    (hn : n.Reliable) : m.Reliable := by
  have hc := n.chain.reach_refuses h
  obtain ⟨j, hj, hjr⟩ := hn.journal.exists_put Journal.checkpointKey ((Codec.digest 32).store h)
  cases ha with
  | refused e c hr =>
    rw [hr] at hc
    exact ⟨hc.trans hn.refuses, hn.journal⟩
  | unsaved e c k hr hp => cases hj.symm.trans hp
  | saved c k hr hp =>
    rw [hr] at hc
    obtain ⟨-, rfl⟩ := Prod.mk.inj (hj.symm.trans hp)
    exact ⟨hc.trans hn.refuses, hjr⟩

theorem Adoption.false_of_error {e : AnchorError} (ha : n.Adoption h (.error e, m))
    (hn : n.Reliable) (hs : n.tree.Sound) (hh : n.tree.contains h = true) : False := by
  obtain ⟨c, j, hc, hj⟩ := hn.exists_adopt hs hh
  cases ha with
  | refused e c' hr => cases hc.symm.trans hr
  | unsaved e c' j' hr hp => cases hj.symm.trans hp

theorem Adoption.anchor (ha : n.Adoption h (.ok (), m)) :
    m.anchor = { n.anchor with current := h } := by
  cases ha with
  | saved c j hc hp => rfl

theorem Kept.reliable (hk : n.Kept m) (hn : n.Reliable) : m.Reliable :=
  ⟨hk.chain ▸ hn.refuses, hk.journal ▸ hn.journal⟩

theorem promote_anchor (n : Node) (ids : List PeerId) :
    (n.promote ids).anchor = { n.anchor.forget with message := n.anchor.pendingMessage } := by
  rw [promote]
  dsimp only
  split <;> rfl

theorem Reliable.promote (hn : n.Reliable) (ids : List PeerId) : (n.promote ids).Reliable := by
  rw [Node.promote]
  dsimp only
  split <;> exact ⟨hn.refuses, hn.journal⟩

theorem Acceptance.reliable {ids : List PeerId} {r : Except AnchorError Bool}
    (ha : n.Acceptance ids (r, m)) (hn : n.Reliable) : m.Reliable := by
  cases ha with
  | idle => exact hn
  | dropped h r a hp hc hv => exact (dropped_kept hv).reliable hn
  | failed h e m hp hc hj hm => exact hm.reliable hn
  | accepted h m hp hc hj hm => exact (hm.reliable hn).promote ids

theorem Processing.reliable {c : Checkpoint} {sender : Option PeerId}
    {r : Except AnchorError Bool} (hp : n.Processing c sender (r, m)) (hn : n.Reliable) :
    m.Reliable := by
  cases hp with
  | unsigned => exact hn
  | awaited d => exact (n.await_kept d sender).reliable hn
  | invalid d e a hd hc hv => exact (invalid_kept hv).reliable hn
  | older => exact hn
  | failed d e m hd hc hj hm => exact hm.reliable hn
  | accepted d m hd hc hj hm =>
    have hm := hm.reliable hn
    exact ⟨hm.refuses, hm.journal⟩

end Node

/-- The network whose master key is the public key of the secret one. -/
def Network.endorsing : Network :=
  { (default : Network) with genesis := Digest.ofNatLE 0, masterKey := Checkpoint.endorser }

namespace Node

def stationed : Node :=
  ⟨.new .endorsing .strict, ⟨.withGenesis (Digest.ofNatLE 0) 0, false⟩, .empty, ∅⟩

def stationedIn (es : List BlockTree.Event) : Node :=
  { stationed with chain := ⟨(BlockTree.withGenesis (Digest.ofNatLE 0) 0).run es, false⟩ }

theorem reliable_stationed : stationed.Reliable := ⟨rfl, Journal.reliable_ofStore rfl⟩

theorem reachable_stationed : stationed.tree.Reachable := ⟨Digest.ofNatLE 0, 0, [], rfl⟩

theorem check_stationed (h : Hash) (hm : Signature.makes 1
      (Signature.scalarOf (Sha256.double (Checkpoint.new h).payload)) 1 = true) :
    (Checkpoint.endorsed h).check stationed.anchor.network.masterKey = .ok (.endorsed h) := by
  have hk : stationed.anchor.network.masterKey = Checkpoint.endorser := by
    simp only [stationed, Anchor.new, Network.endorsing]
  rw [hk]
  exact Checkpoint.check_endorsed h hm

end Node

end ChainAnchor
