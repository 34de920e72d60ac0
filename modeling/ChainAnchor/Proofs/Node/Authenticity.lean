import ChainAnchor.Proofs.Node.Reliable

namespace ChainAnchor

namespace Anchor

variable {a a' : Anchor} {w : Network} {c : Checkpoint} {h : Hash}

/-- The default message stands for a block that no checkpoint has been received for. -/
structure Authentic (w : Network) (a : Anchor) : Prop where
  network : a.network = w
  unpending : a.pending = none → a.pendingMessage = default
  pending (h : Hash) : a.pending = some h → a.pendingMessage = default ∨
    (a.pendingMessage.Genuine w.masterKey ∧ a.pendingMessage.block = h)
  message : a.message = default ∨ a.message.Genuine w.masterKey

structure Retains (a a' : Anchor) : Prop where
  network : a'.network = a.network
  pending : a'.pending = a.pending
  pendingMessage : a'.pendingMessage = a.pendingMessage
  message : a'.message = a.message

theorem Retains.refl (a : Anchor) : a.Retains a := ⟨rfl, rfl, rfl, rfl⟩

theorem validate_retains (a : Anchor) (t : BlockTree) (h : Hash) :
    a.Retains (a.validate t h).2 := by
  rcases a.validate_snd t h with he | he <;> rw [he] <;> exact ⟨rfl, rfl, rfl, rfl⟩

theorem accept_retains (a : Anchor) (t : BlockTree) (h parent : Hash) (catchingUp : Bool) :
    a.Retains (a.accept t h parent catchingUp).2 := by
  rcases a.accept_snd t h parent catchingUp with he | he <;> rw [he] <;> exact ⟨rfl, rfl, rfl, rfl⟩

theorem setMasterKey_retains (a : Anchor) (secret : String) :
    a.Retains (a.setMasterKey secret).2 := by
  rcases a.setMasterKey_snd secret with he | ⟨k, he⟩ <;> rw [he] <;> exact ⟨rfl, rfl, rfl, rfl⟩

theorem authentic_new (w : Network) (p : Policy) : (Anchor.new w p).Authentic w :=
  ⟨rfl, fun _ ↦ rfl, nofun, Or.inl rfl⟩

theorem Authentic.retains (ha : a.Authentic w) (hr : a.Retains a') : a'.Authentic w where
  network := hr.network.trans ha.network
  unpending hp := hr.pendingMessage.trans (ha.unpending (hr.pending.symm.trans hp))
  pending h hp := by
    rw [hr.pendingMessage]
    exact ha.pending h (hr.pending.symm.trans hp)
  message := by
    rw [hr.message]
    exact ha.message

theorem Authentic.forget (ha : a.Authentic w) : a.forget.Authentic w :=
  ⟨ha.network, fun _ ↦ rfl, nofun, ha.message⟩

theorem Authentic.postpone (ha : a.Authentic w)
    (hc : c = default ∨ (c.Genuine w.masterKey ∧ c.block = h)) : (a.postpone h c).Authentic w where
  network := ha.network
  unpending hp := by cases hp
  pending x hp := by
    cases hp
    exact hc
  message := ha.message

theorem Authentic.withMessage (ha : a.Authentic w) (hc : c = default ∨ c.Genuine w.masterKey) :
    { a with message := c }.Authentic w :=
  ⟨ha.network, ha.unpending, ha.pending, hc⟩

theorem Authentic.pendingMessage (ha : a.Authentic w) :
    a.pendingMessage = default ∨ a.pendingMessage.Genuine w.masterKey := by
  cases hp : a.pending with
  | none => exact Or.inl (ha.unpending hp)
  | some h => exact (ha.pending h hp).imp_right And.left

end Anchor

namespace Peer

theorem relay_of_known {p : Peer} {c : Checkpoint} (hk : p.known = c.block) :
    p.relay c = (false, p) := by
  rw [relay, if_pos hk]

theorem known_relay (p : Peer) (c : Checkpoint) : (p.relay c).2.known = c.block := by
  rw [relay, push]
  split
  · assumption
  · split <;> rfl

theorem relay_relay (p : Peer) (c : Checkpoint) : ((p.relay c).2.relay c).2 = (p.relay c).2 := by
  rw [relay_of_known (p.known_relay c)]

theorem queue_relay (p : Peer) (c : Checkpoint) :
    (p.relay c).2.queue = p.queue ∨ (p.relay c).2.queue = p.queue ++ [.checkpoint c] := by
  rw [relay, push]
  split
  · exact Or.inl rfl
  · split
    · exact Or.inr rfl
    · exact Or.inl rfl

end Peer

namespace Peers

theorem peer_update (ps : Peers) (i id : PeerId) (f : Peer → Peer) :
    (ps.update i f).peer id = if i = id then f (ps.peer i) else ps.peer id := by
  simp only [peer, update, Std.ExtTreeMap.getD_insert, Std.compare_eq_iff_eq]

/-- A peer that is named more than once is sent the checkpoint once. -/
theorem peer_relay (ps : Peers) (ids : List PeerId) (c : Checkpoint) (id : PeerId) :
    (ps.relay ids c).peer id =
      if id ∈ ids then ((ps.peer id).relay c).2 else ps.peer id := by
  induction ids generalizing ps with
  | nil => rfl
  | cons i ids ih =>
    have hi := ih (ps.update i fun p ↦ (p.relay c).2)
    rw [peer_update] at hi
    change ((ps.update i fun p ↦ (p.relay c).2).relay ids c).peer id = _
    rw [hi]
    by_cases he : i = id
    · subst he
      simp only [if_true, List.mem_cons_self, Peer.relay_relay, ite_self]
    · simp only [if_neg he, List.mem_cons, Ne.symm he, false_or]

theorem queue_relay (ps : Peers) (ids : List PeerId) (c : Checkpoint) (id : PeerId) :
    ((ps.relay ids c).peer id).queue = (ps.peer id).queue ∨
      ((ps.relay ids c).peer id).queue = (ps.peer id).queue ++ [.checkpoint c] := by
  rw [peer_relay]
  split
  · exact (ps.peer id).queue_relay c
  · exact Or.inl rfl

end Peers

namespace Node

variable {n m : Node} {w : Network} {c : Checkpoint} {h : Hash} {ids : List PeerId}

theorem Adoption.retains {r : Except AnchorError Unit} (ha : n.Adoption h (r, m)) :
    n.anchor.Retains m.anchor := by
  cases ha <;> exact ⟨rfl, rfl, rfl, rfl⟩

theorem Writing.retains {r : Except AnchorError Unit} (hw : n.Writing h (r, m)) :
    n.anchor.Retains m.anchor := by
  cases hw <;> exact ⟨rfl, rfl, rfl, rfl⟩

theorem Acceptance.authentic {r : Except AnchorError Bool} (ha : n.Acceptance ids (r, m))
    (hn : n.anchor.Authentic w) : m.anchor.Authentic w := by
  cases ha with
  | idle => exact hn
  | dropped h r a hp hc hv =>
    have hr := n.anchor.validate_retains n.tree h
    rw [hv] at hr
    exact (hn.retains hr).forget
  | failed h e m hp hc hj hm => exact hn.retains hm.retains
  | accepted h m hp hc hj hm =>
    have hm := hn.retains hm.retains
    rw [promote_anchor]
    exact hm.forget.withMessage hm.pendingMessage

theorem Processing.authentic {sender : Option PeerId} {r : Except AnchorError Bool}
    (hp : n.Processing c sender (r, m)) (hn : n.anchor.Authentic w) : m.anchor.Authentic w := by
  cases hp with
  | unsigned => exact hn
  | awaited d hd =>
    obtain ⟨hg, -⟩ := Checkpoint.genuine_of_check (hn.network ▸ hd)
    rw [await_anchor]
    exact hn.postpone (Or.inr ⟨hg, rfl⟩)
  | invalid d e a hd hc hv =>
    have hr := n.anchor.validate_retains n.tree d.block
    rw [hv] at hr
    exact hn.retains hr
  | older => exact hn
  | failed d e m hd hc hj hm => exact hn.retains hm.retains
  | accepted d m hd hc hj hm =>
    obtain ⟨hg, -⟩ := Checkpoint.genuine_of_check (hn.network ▸ hd)
    exact (hn.retains hm.retains).forget.withMessage (Or.inr hg)

theorem Sending.authentic {r : Except AnchorError Bool} (hs : n.Sending h ids (r, m))
    (hn : n.anchor.Authentic w) : m.anchor.Authentic w := by
  cases hs with
  | unsigned => exact hn
  | withheld c r m hp => exact hp.authentic hn
  | relayed k c m hk hs hp => exact hp.authentic hn

theorem Following.authentic {now : Int64} {r : Except AnchorError Unit × Node}
    (hf : n.Following ids now r) (hn : n.anchor.Authentic w) : r.2.anchor.Authentic w := by
  have ha : (n.acceptPending ids).2.anchor.Authentic w := (n.acceptPending_outcome ids).authentic hn
  rcases hf.sends with he | ⟨h, sent, hs⟩
  · exact he ▸ ha
  · exact hs.authentic ha

theorem Preparation.authentic {r : Except AnchorError Unit} (hp : n.Preparation (r, m))
    (hn : n.anchor.Authentic w) : m.anchor.Authentic w := by
  cases hp with
  | awaited => exact hn.postpone (Or.inl rfl)
  | _ => exact hn

theorem Resetting.authentic {r : Except AnchorError Bool} (hs : n.Resetting (r, m))
    (hn : n.anchor.Authentic w) : m.anchor.Authentic w := by
  cases hs with
  | unprepared e m hp => exact hp.authentic hn
  | groundless m hp => exact hp.authentic hn
  | unsaved m p e m' hp hf hw => exact (hp.authentic hn).retains hw.retains
  | saved m p m' hp hf hw => exact (hp.authentic hn).retains hw.retains

theorem KeyCheck.authentic {r : Except AnchorError Unit} (hk : n.KeyCheck (r, m))
    (hn : n.anchor.Authentic w) : m.anchor.Authentic w := by
  cases hk with
  | reset k j j' r m hj hne hj' ht hr => exact hr.authentic hn
  | _ => exact hn

theorem receive_retains (n : Node) (h parent : Hash) (time : Int64) (catchingUp : Bool) :
    n.anchor.Retains (n.receive h parent time catchingUp).anchor := by
  have hr := n.anchor.accept_retains n.tree h parent catchingUp
  rw [receive]
  rcases ha : n.anchor.accept n.tree h parent catchingUp with ⟨e | u, a⟩ <;> rwa [ha] at hr

theorem Loading.retains {r : Except AnchorError Unit} (hl : n.Loading (r, m)) :
    n.anchor.Retains m.anchor := by
  cases hl with
  | unread => exact .refl _
  | read => exact ⟨rfl, rfl, rfl, rfl⟩
  | written j r hj hw => exact hw.retains

theorem authentic_of_start {p : Policy} {c : Chain} {j : Journal} {ps : Peers}
    (hs : start w p c j ps = (.ok (), n)) : n.anchor.Authentic w := by
  have hn := start_outcome w p c j ps
  rw [hs] at hn
  cases hn with
  | checked m r hl hk => exact hk.authentic ((Anchor.authentic_new w p).retains hl.retains)

theorem authentic_of_retains {a : Anchor} (hn : n.anchor.Authentic w) (hr : n.anchor.Retains a) :
    { n with anchor := a }.anchor.Authentic w := hn.retains hr

theorem authentic_apply (hn : n.anchor.Authentic w) (e : Event) :
    (e.apply n).anchor.Authentic w := by
  cases e with
  | process c sender => exact (n.process_outcome c sender).authentic hn
  | acceptPending ids => exact (n.acceptPending_outcome ids).authentic hn
  | send h ids => exact (n.send_outcome h ids).authentic hn
  | blockProcessed ids now => exact (n.blockProcessed_outcome ids now).authentic hn
  | validate h => exact authentic_of_retains hn (n.anchor.validate_retains n.tree h)
  | accept h parent catchingUp =>
    exact authentic_of_retains hn (n.anchor.accept_retains n.tree h parent catchingUp)
  | receive h parent time catchingUp =>
    exact hn.retains (n.receive_retains h parent time catchingUp)
  | askForPending peer =>
    change (n.askForPending peer).2.anchor.Authentic w
    rw [askForPending]
    split
    · exact hn
    · split <;> exact hn
  | setMasterKey secret =>
    exact authentic_of_retains hn (n.anchor.setMasterKey_retains secret)
  | reset => exact n.reset_outcome.authentic hn
  | write h => exact hn.retains (n.write_outcome h).retains
  | checkMasterKey => exact n.checkMasterKey_outcome.authentic hn
  | grow f => exact hn
  | refuse b => exact hn
  | useChain c => exact hn

/-- A node that events lead to from a new one or from one that has started, while its chain, its
store and its peers may be changed by others at any time. -/
inductive Possible (w : Network) : Node → Prop
  | new (p : Policy) (c : Chain) (j : Journal) (ps : Peers) : Possible w ⟨.new w p, c, j, ps⟩
  | started {n : Node} {p : Policy} {c : Chain} {j : Journal} {ps : Peers} :
      start w p c j ps = (.ok (), n) → Possible w n
  | apply {n : Node} (e : Event) : Possible w n → Possible w (e.apply n)
  | changed {n : Node} (c : Chain) (j : Journal) (ps : Peers) : Possible w n →
      Possible w { n with chain := c, journal := j, peers := ps }

theorem Possible.run (hn : Possible w n) (es : List Event) : Possible w (n.run es) := by
  induction es generalizing n with
  | nil => exact hn
  | cons e es ih => exact ih (hn.apply e)

theorem Possible.authentic (hn : Possible w n) : n.anchor.Authentic w := by
  induction hn with
  | new p => exact Anchor.authentic_new w p
  | started hs => exact authentic_of_start hs
  | apply e _ ih => exact authentic_apply ih e
  | changed c j ps _ ih => exact ih

/-- All that one node has queued for its peers and another had not are checkpoints that the master
key has signed for the current block. -/
def Relays (w : Network) (n m : Node) : Prop := ∀ id, ∃ l,
  (m.peers.peer id).queue = (n.peers.peer id).queue ++ l ∧
    ∀ x ∈ l, ∃ c : Checkpoint, x = .checkpoint c ∧ c.Genuine w.masterKey ∧
      c.block = m.anchor.current

theorem relays_of_peers (hp : m.peers = n.peers) : Relays w n m :=
  fun id ↦ ⟨[], by rw [hp, List.append_nil], by simp⟩

theorem Adoption.peers {r : Except AnchorError Unit} (ha : n.Adoption h (r, m)) :
    m.peers = n.peers := by
  cases ha <;> rfl

theorem Processing.peers {r : Except AnchorError Bool} (hp : n.Processing c none (r, m)) :
    m.peers = n.peers := by
  cases hp with
  | failed d e m hd hc hj hm => exact hm.peers
  | accepted d m hd hc hj hm => exact hm.peers
  | _ => rfl

def Passes (w : Network) (ids : List PeerId) (n m : Node) : Prop :=
  m.peers = n.peers ∨ ∃ c : Checkpoint, m.peers = n.peers.relay ids c ∧ c.Genuine w.masterKey ∧
    c.block = m.anchor.current ∧ Anchor.judge n.tree n.anchor.current c.block = .ok true

theorem Passes.relays (hp : Passes w ids n m) : Relays w n m := by
  rcases hp with hp | ⟨c, hp, hc, hb, -⟩
  · exact relays_of_peers hp
  · intro id
    rw [hp]
    rcases n.peers.queue_relay ids c id with hq | hq
    · exact ⟨[], by rw [hq, List.append_nil], by simp⟩
    · exact ⟨[.checkpoint c], hq, fun x hx ↦ ⟨c, List.mem_singleton.mp hx, hc, hb⟩⟩

theorem Acceptance.passes {r : Except AnchorError Bool × Node} (ha : n.Acceptance ids r)
    (hn : n.anchor.Authentic w) : Passes w ids n r.2 := by
  cases ha with
  | idle => exact Or.inl rfl
  | dropped => exact Or.inl rfl
  | failed h e m hp hc hj hm => exact Or.inl hm.peers
  | accepted h m hp hc hj hm =>
    have hr := hm.retains
    rw [promote]
    dsimp only
    split
    next => exact Or.inl hm.peers
    next hnull =>
      rcases (hn.retains hr).pending h (hr.pending.trans hp) with hd | ⟨hg, hb⟩
      · rw [hd] at hnull
        exact absurd Checkpoint.isNull_default hnull
      · refine Or.inr ⟨_, congrArg (Peers.relay · ids _) hm.peers, hg, ?_, hb ▸ hj⟩
        rw [hb, hm.anchor]
        rfl

theorem Sending.passes {r : Except AnchorError Bool × Node} (hs : n.Sending h ids r)
    (hn : n.anchor.Authentic w) : Passes w ids n r.2 := by
  cases hs with
  | unsigned => exact Or.inl rfl
  | withheld c r m hp => exact Or.inl hp.peers
  | relayed k c m hk hs hp =>
    have hps := hp.peers
    cases hp with
    | accepted d m hd hc hj hm =>
      obtain rfl := Checkpoint.eq_of_check_sign hs hd
      obtain ⟨hg, -⟩ := Checkpoint.genuine_of_check (hn.network ▸ hd)
      refine Or.inr ⟨_, congrArg (Peers.relay · ids _) hps, hg, ?_, hj⟩
      rw [hm.anchor]
      rfl

theorem Acceptance.relays {r : Except AnchorError Bool} (ha : n.Acceptance ids (r, m))
    (hn : n.anchor.Authentic w) : Relays w n m := (ha.passes hn).relays

theorem Sending.relays {r : Except AnchorError Bool} (hs : n.Sending h ids (r, m))
    (hn : n.anchor.Authentic w) : Relays w n m := (hs.passes hn).relays

/-- Whatever messages a node has received, it keeps and relays no checkpoint but the ones that the
master key has signed, each for the block that it is kept or relayed for, and an unsigned one
changes nothing. -/
theorem authentic_of_possible (hn : Possible w n) :
    n.anchor.Authentic w ∧ (∀ ids, Relays w n (n.acceptPending ids).2) ∧
      (∀ h ids, Relays w n (n.send h ids).2) ∧
      ∀ (c : Checkpoint) (sender : Option PeerId) (e : CheckpointError),
        c.check w.masterKey = .error e → n.process c sender = (.ok false, n) := by
  have ha := hn.authentic
  refine ⟨ha, fun ids ↦ (n.acceptPending_outcome ids).relays ha,
    fun h ids ↦ (n.send_outcome h ids).relays ha, fun c sender e hc ↦ ?_⟩
  rw [process, ha.network, hc]

def attended : Node :=
  stationed.run [.process (.endorsed (Digest.ofNatLE 1)) (some 5),
    .grow (.insert (Digest.ofNatLE 1) (Digest.ofNatLE 0) 30), .acceptPending [5, 6]]

theorem authentic_of_possible_attended :
    Possible .endorsing attended ∧
      (attended.anchor.Authentic .endorsing ∧
      (∀ ids, Relays .endorsing attended (attended.acceptPending ids).2) ∧
      (∀ h ids, Relays .endorsing attended (attended.send h ids).2) ∧
      ∀ (c : Checkpoint) (sender : Option PeerId) (e : CheckpointError),
        c.check Network.endorsing.masterKey = .error e →
          attended.process c sender = (.ok false, attended)) ∧
      attended.anchor.message ≠ default ∧ (attended.peers.peer 6).queue.length = 1 := by
  have hs : Possible .endorsing stationed := .new ..
  have hc := check_stationed (Digest.ofNatLE 1) (by decide +kernel)
  have hu : stationed.tree.contains (Digest.ofNatLE 1) = false := by decide +kernel
  have he : attended = (stationed.await (.endorsed (Digest.ofNatLE 1)) (some 5)).run
      [.grow (.insert (Digest.ofNatLE 1) (Digest.ofNatLE 0) 30), .acceptPending [5, 6]] := by
    rw [attended, run_cons, Event.apply, process_of_unknown hc hu]
  have hn : Possible .endorsing attended := hs.run _
  refine ⟨hn, authentic_of_possible hn, ?_, ?_⟩ <;> rw [he] <;> decide +kernel

end Node

end ChainAnchor
