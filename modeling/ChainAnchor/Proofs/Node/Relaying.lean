import ChainAnchor.Proofs.Node.Authenticity
import ChainAnchor.Proofs.Node.Growth

namespace ChainAnchor

open BlockTree

namespace BlockTree

variable {t : BlockTree} {a : Hash} {l : List Hash}

theorem Rises.ne {c : Hash} (hr : t.Rises a c) : a ≠ c := by
  rintro rfl
  obtain ⟨x, y, hx, hy, hlt⟩ := hr.height_lt
  rw [hx] at hy
  cases hy
  exact UInt64.lt_irrefl _ hlt

theorem nodup_of_pairwise_rises (hl : l.Pairwise t.Rises) : l.Nodup :=
  hl.imp Rises.ne

end BlockTree

def Message.announced? : Message → Option Hash
  | checkpoint c => some c.block
  | _ => none

namespace Peer

def announced (p : Peer) : List Hash := p.queue.filterMap Message.announced?

theorem announced_push {m : Message} (hm : m.announced? = none) (p : Peer) :
    (p.push m).announced = p.announced := by
  rw [push]
  split
  · simp [announced, List.filterMap_append, hm]
  · rfl

end Peer

namespace Peers

def announced (ps : Peers) (id : PeerId) : List Hash := (ps.peer id).announced

theorem announced_push {m : Message} (hm : m.announced? = none) (ps : Peers) (i id : PeerId) :
    (ps.push i m).announced id = ps.announced id := by
  rw [announced, push, peer_update]
  split
  next hi => rw [Peer.announced_push hm, hi, announced]
  next => rfl

theorem announced_relay (ps : Peers) (ids : List PeerId) (c : Checkpoint) (id : PeerId) :
    (ps.relay ids c).announced id = ps.announced id ∨
      (ps.relay ids c).announced id = ps.announced id ++ [c.block] := by
  rw [announced, announced, Peer.announced, Peer.announced]
  rcases ps.queue_relay ids c id with hq | hq
  · exact Or.inl (congrArg _ hq)
  · rw [hq, List.filterMap_append]
    exact Or.inr rfl

end Peers

namespace Node

variable {n m k : Node} {w : Network} {c : Checkpoint} {h : Hash} {ids : List PeerId}

def Announces (n m : Node) : Prop := ∀ id,
  m.peers.announced id = n.peers.announced id ∨
    (m.peers.announced id = n.peers.announced id ++ [m.anchor.current] ∧
      Anchor.judge n.tree n.anchor.current m.anchor.current = .ok true)

theorem announces_of_peers (hp : m.peers = n.peers) : n.Announces m :=
  fun _ ↦ Or.inl (by rw [hp])

theorem Passes.announces (hp : Passes w ids n m) : n.Announces m := by
  rcases hp with hp | ⟨c, hp, -, hb, hj⟩
  · exact announces_of_peers hp
  · intro id
    rw [hp]
    rcases n.peers.announced_relay ids c id with ha | ha
    · exact Or.inl ha
    · exact Or.inr ⟨by rw [ha, hb], hb ▸ hj⟩

theorem await_announces (n : Node) (c : Checkpoint) (sender : Option PeerId) :
    n.Announces (n.await c sender) := by
  intro id
  left
  cases sender with
  | none => rfl
  | some peer =>
    dsimp only [await, request]
    split
    · exact Peers.announced_push rfl _ _ _
    · exact (Peers.announced_push rfl _ _ _).trans (Peers.announced_push rfl _ _ _)

theorem askForPending_announces (n : Node) (peer : PeerId) :
    n.Announces (n.askForPending peer).2 := by
  rw [askForPending]
  split
  · exact announces_of_peers rfl
  · split
    · exact announces_of_peers rfl
    · exact fun id ↦ Or.inl (Peers.announced_push rfl _ _ _)

theorem Processing.announces {sender : Option PeerId} {r : Except AnchorError Bool × Node}
    (hp : n.Processing c sender r) : n.Announces r.2 := by
  cases hp with
  | awaited d => exact n.await_announces d sender
  | failed d e m hd hc hj hm => exact announces_of_peers hm.peers
  | accepted d m hd hc hj hm => exact announces_of_peers hm.peers
  | _ => exact announces_of_peers rfl

/-- From one node to the next the checkpoint stays or rises, and so do the blocks that each peer is
told of, from the one checkpoint up to the other. -/
structure Ascends (n m : Node) : Prop extends Advances n m where
  announced (id : PeerId) : ∃ l, m.peers.announced id = n.peers.announced id ++ l ∧
    (n.anchor.current :: l).Pairwise m.tree.Rises ∧
    ∀ h ∈ l, m.anchor.current = h ∨ m.tree.Rises h m.anchor.current

theorem Ascends.refl (n : Node) : n.Ascends n where
  toAdvances := .refl n
  announced _ := ⟨[], (List.append_nil _).symm, List.pairwise_singleton .., List.forall_mem_nil _⟩

/-- All that a peer is told of first lies at or below the checkpoint of the node between, and all
that it is told of then lies above it. -/
theorem Ascends.trans (h₁ : n.Ascends m) (h₂ : m.Ascends k) : n.Ascends k where
  toAdvances := h₁.toAdvances.trans h₂.toAdvances
  announced id := by
    obtain ⟨l₁, ha₁, hp₁, hm₁⟩ := h₁.announced id
    obtain ⟨l₂, ha₂, hp₂, hm₂⟩ := h₂.announced id
    obtain ⟨hlow, hp₂⟩ := List.pairwise_cons.mp hp₂
    have hp₁ : (n.anchor.current :: l₁).Pairwise k.tree.Rises :=
      hp₁.imp fun hr ↦ hr.extends h₂.tree
    have htop : ∀ x ∈ n.anchor.current :: l₁,
        m.anchor.current = x ∨ k.tree.Rises x m.anchor.current :=
      List.forall_mem_cons.mpr ⟨h₁.current.imp_right fun hr ↦ hr.extends h₂.tree,
        fun x hx ↦ (hm₁ x hx).imp_right fun hr ↦ hr.extends h₂.tree⟩
    refine ⟨l₁ ++ l₂, by rw [ha₂, ha₁, List.append_assoc], ?_, ?_⟩
    · rw [← List.cons_append]
      refine List.pairwise_append.mpr ⟨hp₁, hp₂, fun x hx y hy ↦ ?_⟩
      rcases htop x hx with he | hr
      · exact he ▸ hlow y hy
      · exact hr.trans (hlow y hy)
    · refine List.forall_mem_append.mpr ⟨fun x hx ↦ ?_, hm₂⟩
      rcases h₂.current with he | hr
      · rw [he]
        exact htop x (List.mem_cons_of_mem _ hx)
      · rcases htop x (List.mem_cons_of_mem _ hx) with he' | hr'
        · exact Or.inr (he' ▸ hr)
        · exact Or.inr (hr'.trans hr)

theorem Advances.ascends_of_peers (ha : n.Advances m) (hp : m.peers = n.peers) : n.Ascends m where
  toAdvances := ha
  announced id := ⟨[], by rw [hp, List.append_nil], List.pairwise_singleton ..,
    List.forall_mem_nil _⟩

theorem Forward.ascends (hf : n.Forward m) (hr : n.tree.Reachable) (ha : n.Announces m) :
    n.Ascends m where
  toAdvances := hf.advances hr
  announced id := by
    rcases ha id with he | ⟨he, hj⟩
    · exact ⟨[], by rw [he, List.append_nil], List.pairwise_singleton .., List.forall_mem_nil _⟩
    · have hrise := (rises_of_judge hr.keyed hj).extends hf.tree.relinked.extends
      exact ⟨[m.anchor.current], he, List.pairwise_pair.mpr hrise,
        List.forall_mem_singleton.mpr (Or.inl rfl)⟩

theorem Acceptance.ascends {r : Except AnchorError Bool × Node} (ha : n.Acceptance ids r)
    (hn : n.anchor.Authentic w) (hr : n.tree.Reachable) : n.Ascends r.2 :=
  ha.forward.ascends hr (ha.passes hn).announces

theorem Sending.ascends {r : Except AnchorError Bool × Node} (hs : n.Sending h ids r)
    (hn : n.anchor.Authentic w) (hr : n.tree.Reachable) : n.Ascends r.2 :=
  hs.forward.ascends hr (hs.passes hn).announces

theorem Following.ascends {now : Int64} {r : Except AnchorError Unit × Node}
    (hf : n.Following ids now r) (hn : n.anchor.Authentic w) (hr : n.tree.Reachable) :
    n.Ascends r.2 := by
  have ho := n.acceptPending_outcome ids
  have ha := ho.ascends hn hr
  rcases hf.sends with he | ⟨h, sent, hs⟩
  · exact he ▸ ha
  · exact ha.trans (hs.ascends (ho.authentic hn) (ho.forward.tree.reachable hr))

theorem receive_peers (n : Node) (h parent : Hash) (time : Int64) (catchingUp : Bool) :
    (n.receive h parent time catchingUp).peers = n.peers := by
  rw [receive]
  split <;> rfl

theorem Event.ascends {e : Event} (he : e.isForward) (hn : n.anchor.Authentic w)
    (hr : n.tree.Reachable) : n.Ascends (e.apply n) := by
  cases e with
  | process c sender =>
    have hp := n.process_outcome c sender
    exact hp.forward.ascends hr hp.announces
  | acceptPending ids => exact (n.acceptPending_outcome ids).ascends hn hr
  | send h ids => exact (n.send_outcome h ids).ascends hn hr
  | blockProcessed ids now => exact (n.blockProcessed_outcome ids now).ascends hn hr
  | validate h => exact ((n.validate_kept h).forward.advances hr).ascends_of_peers rfl
  | accept h parent catchingUp =>
    have hk := kept_of_keeps (n.anchor.accept_keeps n.tree h parent catchingUp)
    exact (hk.forward.advances hr).ascends_of_peers rfl
  | receive h parent time catchingUp =>
    exact ((n.receive_step h parent time catchingUp).advances hr).ascends_of_peers
      (n.receive_peers h parent time catchingUp)
  | askForPending peer =>
    exact (n.askForPending_kept peer).forward.ascends hr (n.askForPending_announces peer)
  | setMasterKey secret =>
    have hk := kept_of_keeps (n.anchor.setMasterKey_keeps secret)
    exact (hk.forward.advances hr).ascends_of_peers rfl
  | grow f =>
    have ha := (Step.grown (n := n) f rfl).advances hr
    exact ha.ascends_of_peers rfl
  | refuse b => exact Advances.ascends_of_peers ⟨rfl, rfl, .refl _, Or.inl rfl⟩ rfl
  | reset => cases he
  | write h => cases he
  | checkMasterKey => cases he
  | useChain c => cases he

theorem ascends_run (hn : Possible w n) (hr : n.tree.Reachable) {es : List Event}
    (hes : ∀ e ∈ es, e.isForward) : n.Ascends (n.run es) := by
  induction es generalizing n with
  | nil => exact .refl n
  | cons e es ih =>
    obtain ⟨he, hes⟩ := List.forall_mem_cons.mp hes
    have hr' := Event.reachable (Event.keepsChain_of_isForward he) hr
    exact (e.ascends he hn.authentic hr).trans (ih (hn.apply e) hr' hes)

/-- Each checkpoint that a peer is sent in a run rises from the one that it was sent before, so none
is sent to it twice. -/
theorem announced_rises (hn : Possible w n) (hr : n.tree.Reachable) (es : List Event)
    (hes : ∀ e ∈ es, e.isForward) (id : PeerId) :
    ∃ l, (n.run es).peers.announced id = n.peers.announced id ++ l ∧
      l.Pairwise (n.run es).tree.Rises ∧ l.Nodup := by
  obtain ⟨l, hl, hp, -⟩ := (ascends_run hn hr hes).announced id
  have hp := (List.pairwise_cons.mp hp).2
  exact ⟨l, hl, hp, nodup_of_pairwise_rises hp⟩

def rounds : List Event :=
  let h (n : Nat) : Hash := Digest.ofNatLE n
  [.process (.endorsed (h 1)) (some 5), .grow (.insert (h 1) (h 0) 30), .acceptPending [5, 6, 5],
    .process (.endorsed (h 2)) (some 6), .grow (.insert (h 2) (h 1) 60), .acceptPending [6, 5, 6]]

theorem announced_rises_rounds :
    Possible .endorsing stationed ∧ stationed.tree.Reachable ∧ (∀ e ∈ rounds, e.isForward) ∧
      (∀ id, ∃ l, (stationed.run rounds).peers.announced id =
          stationed.peers.announced id ++ l ∧
        l.Pairwise (stationed.run rounds).tree.Rises ∧ l.Nodup) ∧
      (stationed.run rounds).peers.announced 6 = [Digest.ofNatLE 1, Digest.ofNatLE 2] := by
  have hn : Possible .endorsing stationed := .new ..
  have hes : ∀ e ∈ rounds, e.isForward := by simp [rounds, Event.isForward]
  refine ⟨hn, reachable_stationed, hes, announced_rises hn reachable_stationed rounds hes, ?_⟩
  have h₁ : stationed.run (rounds.take 3) =
      (stationed.await (.endorsed (Digest.ofNatLE 1)) (some 5)).run (rounds.take 3).tail :=
    run_process_of_unknown (check_stationed _ (by decide +kernel)) (by decide +kernel) _
  have hc : (Checkpoint.endorsed (Digest.ofNatLE 2)).check
      (stationed.run (rounds.take 3)).anchor.network.masterKey =
        .ok (.endorsed (Digest.ofNatLE 2)) := by
    rw [(hn.run _).authentic.network]
    exact Checkpoint.check_endorsed _ (by decide +kernel)
  have hu : (stationed.run (rounds.take 3)).tree.contains (Digest.ofNatLE 2) = false := by
    rw [h₁]
    decide +kernel
  have h₂ : stationed.run rounds = ((stationed.run (rounds.take 3)).await
      (.endorsed (Digest.ofNatLE 2)) (some 6)).run (rounds.drop 4) :=
    (run_append stationed (rounds.take 3) (rounds.drop 3)).trans (run_process_of_unknown hc hu _)
  rw [h₂, h₁]
  decide +kernel

end Node

end ChainAnchor
