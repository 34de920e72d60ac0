import ChainAnchor.Proofs.Node.Run

namespace ChainAnchor

namespace BlockTree

variable {t t' : BlockTree} {a c d h : Hash}

structure Rises (t : BlockTree) (a c : Hash) : Prop where
  strictAncestor : t.StrictAncestor a c
  height_lt : ∃ x y, t.get? a = some x ∧ t.get? c = some y ∧ x.height < y.height

theorem Rises.contains (hr : t.Rises a c) : t.contains c = true := by
  obtain ⟨x, y, -, hy, -⟩ := hr.height_lt
  exact contains_iff.mpr ⟨y, hy⟩

theorem Rises.trans (h₁ : t.Rises a c) (h₂ : t.Rises c d) : t.Rises a d := by
  refine ⟨Relation.TransGen.trans h₁.strictAncestor h₂.strictAncestor, ?_⟩
  obtain ⟨x, y, hx, hy, hxy⟩ := h₁.height_lt
  obtain ⟨y', z, hy', hz, hyz⟩ := h₂.height_lt
  rw [hy] at hy'
  cases hy'
  exact ⟨x, z, hx, hz, UInt64.lt_trans hxy hyz⟩

theorem Rises.extends (hr : t.Rises a c) (he : t.Extends t') : t'.Rises a c := by
  refine ⟨he.strictAncestor hr.strictAncestor, ?_⟩
  obtain ⟨x, y, hx, hy, hxy⟩ := hr.height_lt
  obtain ⟨x', hx', hux⟩ := he hx
  obtain ⟨y', hy', huy⟩ := he hy
  refine ⟨x', y', hx', hy', ?_⟩
  rw [(Block.unlinked_eq_iff.mp hux).2.1, (Block.unlinked_eq_iff.mp huy).2.1]
  exact hxy

theorem rises_of_judge (hk : t.Keyed) (hj : Anchor.judge t a h = .ok true) : t.Rises a h := by
  unfold Anchor.judge at hj
  split at hj
  · cases hj
  · cases hj
  next x y hx hy =>
    split at hj
    · split at hj
      · cases hj
      · split at hj <;> cases hj
    next hlt =>
      have hlt : x.height < y.height := UInt64.not_le.mp hlt
      split at hj
      · cases hj
      next z hz =>
        split at hj
        next hza =>
          obtain ⟨-, ha⟩ := ancestor_of_ancestor hk hz
          rw [hza] at ha
          have hne : a ≠ h := by
            rintro rfl
            rw [hx] at hy
            cases hy
            exact UInt64.lt_irrefl _ hlt
          exact ⟨.of_ne ha hne, x, y, hx, hy, hlt⟩
        next => cases hj

/-- The tree is as it was, or may have been switched to another tip. -/
def Switched (t t' : BlockTree) : Prop := t' = t ∨ ∃ h, t' = (t.setBest h).2

theorem Switched.relinked (hs : t.Switched t') : t.Relinked t' := by
  rcases hs with rfl | ⟨h, rfl⟩
  · exact .refl _
  · exact setBest_relinked t h

theorem Switched.reachable (hs : t.Switched t') (hr : t.Reachable) : t'.Reachable := by
  rcases hs with rfl | ⟨h, rfl⟩
  · exact hr
  · exact hr.apply (.setBest h)

end BlockTree

theorem Chain.reach_switched (c : Chain) (h : Hash) : c.tree.Switched (c.reach h).2.tree := by
  rw [reach, setBest]
  split
  · exact Or.inl rfl
  · split
    · exact Or.inl rfl
    · refine Or.inr ⟨h, ?_⟩
      rcases c.tree.setBest h with ⟨e | u, t⟩ <;> rfl

namespace Node

open BlockTree

variable {n m : Node} {h : Hash}

structure Forward (n m : Node) : Prop where
  network : m.anchor.network = n.anchor.network
  policy : m.anchor.policy = n.anchor.policy
  tree : n.tree.Switched m.tree
  current : m.anchor.current = n.anchor.current ∨
    Anchor.judge n.tree n.anchor.current m.anchor.current = .ok true

theorem Forward.refl (n : Node) : n.Forward n := ⟨rfl, rfl, Or.inl rfl, Or.inl rfl⟩

theorem Kept.forward (hk : n.Kept m) : n.Forward m :=
  ⟨hk.anchor.network, hk.anchor.policy, Or.inl (congrArg Chain.tree hk.chain),
    Or.inl hk.anchor.current⟩

theorem Forward.promote (hf : n.Forward m) (ids : List PeerId) : n.Forward (m.promote ids) := by
  rw [Node.promote]
  dsimp only
  split <;> exact ⟨hf.network, hf.policy, hf.tree, hf.current⟩

theorem Adoption.forward {r : Except AnchorError Unit × Node} (ha : n.Adoption h r)
    (hj : Anchor.judge n.tree n.anchor.current h = .ok true) : n.Forward r.2 := by
  have ht := n.chain.reach_switched h
  cases ha with
  | refused e c hc =>
    rw [hc] at ht
    exact ⟨rfl, rfl, ht, Or.inl rfl⟩
  | unsaved e c j hc hp =>
    rw [hc] at ht
    exact ⟨rfl, rfl, ht, Or.inl rfl⟩
  | saved c j hc hp =>
    rw [hc] at ht
    exact ⟨rfl, rfl, ht, Or.inr hj⟩

theorem Acceptance.forward {ids : List PeerId} {r : Except AnchorError Bool × Node}
    (ha : n.Acceptance ids r) : n.Forward r.2 := by
  cases ha with
  | idle => exact .refl n
  | dropped h r a hp hc hv => exact (dropped_kept hv).forward
  | failed h e m hp hc hj hm => exact hm.forward hj
  | accepted h m hp hc hj hm => exact (hm.forward hj).promote ids

theorem Processing.forward {c : Checkpoint} {sender : Option PeerId}
    {r : Except AnchorError Bool × Node} (hp : n.Processing c sender r) : n.Forward r.2 := by
  cases hp with
  | unsigned => exact .refl n
  | awaited d => exact (n.await_kept d sender).forward
  | invalid d e a hd hc hv => exact (invalid_kept hv).forward
  | older => exact .refl n
  | failed d e m hd hc hj hm => exact hm.forward hj
  | accepted d m hd hc hj hm =>
    have hf := hm.forward hj
    exact ⟨hf.network, hf.policy, hf.tree, hf.current⟩

theorem Sending.forward {ids : List PeerId} {r : Except AnchorError Bool × Node}
    (hs : n.Sending h ids r) : n.Forward r.2 := by
  cases hs with
  | unsigned => exact .refl n
  | withheld c r m hp => exact hp.forward
  | relayed k c m hk hs hp =>
    have hf := hp.forward
    exact ⟨hf.network, hf.policy, hf.tree, hf.current⟩

/-- A block that has been processed may move the checkpoint twice: once before it sends. -/
theorem Following.forward {ids : List PeerId} {now : Int64} {r : Except AnchorError Unit × Node}
    (hf : n.Following ids now r) : (n.acceptPending ids).2.Forward r.2 := by
  rcases hf.sends with he | ⟨h, sent, hs⟩
  · rw [he]
    exact .refl _
  · exact hs.forward

inductive Step (n : Node) (e : Event) : Node → Prop
  | forward {m : Node} : n.Forward m → Step n e m
  | grown (f : BlockTree.Event) : e = .grow f → Step n e (n.grow f)
  | received (h parent : Hash) (time : Int64) (catchingUp : Bool) (a : Anchor) :
      e = .receive h parent time catchingUp →
      n.anchor.accept n.tree h parent catchingUp = (.ok (), a) →
      Step n e (grow { n with anchor := a } (.insert h parent time))

theorem receive_step (n : Node) (h parent : Hash) (time : Int64) (catchingUp : Bool) :
    n.Step (.receive h parent time catchingUp) (n.receive h parent time catchingUp) := by
  have hk := n.anchor.accept_keeps n.tree h parent catchingUp
  rw [receive]
  rcases ha : n.anchor.accept n.tree h parent catchingUp with ⟨e | u, a⟩
  · rw [ha] at hk
    exact .forward (kept_of_keeps hk).forward
  · exact .received h parent time catchingUp a rfl ha

theorem Event.isChain_step {e : Event} (he : e.isForward) (n : Node) :
    (n :: e.between n ++ [e.apply n]).IsChain fun n m ↦ n.Step e m := by
  cases e with
  | blockProcessed ids now =>
    have hb := (n.blockProcessed_outcome ids now).forward
    exact List.isChain_cons_cons.mpr
      ⟨.forward (n.acceptPending_outcome ids).forward, List.isChain_pair.mpr (.forward hb)⟩
  | process c sender => exact List.isChain_pair.mpr (.forward (n.process_outcome c sender).forward)
  | acceptPending ids =>
    exact List.isChain_pair.mpr (.forward (n.acceptPending_outcome ids).forward)
  | send h ids => exact List.isChain_pair.mpr (.forward (n.send_outcome h ids).forward)
  | validate h =>
    exact List.isChain_pair.mpr (.forward (n.validate_kept h).forward)
  | accept h parent catchingUp =>
    have hk := n.anchor.accept_keeps n.tree h parent catchingUp
    exact List.isChain_pair.mpr (.forward (kept_of_keeps hk).forward)
  | receive h parent time catchingUp =>
    exact List.isChain_pair.mpr (n.receive_step h parent time catchingUp)
  | askForPending peer => exact List.isChain_pair.mpr (.forward (n.askForPending_kept peer).forward)
  | setMasterKey secret =>
    have hk := n.anchor.setMasterKey_keeps secret
    exact List.isChain_pair.mpr (.forward (kept_of_keeps hk).forward)
  | grow f => exact List.isChain_pair.mpr (.grown f rfl)
  | refuse b => exact List.isChain_pair.mpr (.forward ⟨rfl, rfl, Or.inl rfl, Or.inl rfl⟩)
  | reset => cases he
  | write h => cases he
  | checkMasterKey => cases he
  | useChain c => cases he

theorem Step.reachable {e : Event} (hs : n.Step e m) (hr : n.tree.Reachable) :
    m.tree.Reachable := by
  cases hs with
  | forward hf => exact hf.tree.reachable hr
  | grown f => exact hr.apply f
  | received h parent time => exact hr.apply (.insert h parent time)

structure Advances (n m : Node) : Prop where
  network : m.anchor.network = n.anchor.network
  policy : m.anchor.policy = n.anchor.policy
  tree : n.tree.Extends m.tree
  current : m.anchor.current = n.anchor.current ∨ m.tree.Rises n.anchor.current m.anchor.current

theorem Advances.refl (n : Node) : n.Advances n := ⟨rfl, rfl, .refl _, Or.inl rfl⟩

theorem Advances.trans {k : Node} (h₁ : n.Advances m) (h₂ : m.Advances k) : n.Advances k := by
  refine ⟨h₂.network.trans h₁.network, h₂.policy.trans h₁.policy, h₁.tree.trans h₂.tree, ?_⟩
  rcases h₁.current with hn | hn
  · rw [← hn]
    exact h₂.current
  · have hn := hn.extends h₂.tree
    rcases h₂.current with hm | hm
    · exact Or.inr (hm ▸ hn)
    · exact Or.inr (hn.trans hm)

instance : Trans Advances Advances Advances := ⟨Advances.trans⟩

theorem Forward.advances (hf : n.Forward m) (hr : n.tree.Reachable) : n.Advances m := by
  have he := hf.tree.relinked.extends
  refine ⟨hf.network, hf.policy, he, hf.current.imp_right fun hj ↦ ?_⟩
  exact (rises_of_judge hr.keyed hj).extends he

theorem Step.advances {e : Event} (hs : n.Step e m) (hr : n.tree.Reachable) : n.Advances m := by
  cases hs with
  | forward hf => exact hf.advances hr
  | grown f => exact ⟨rfl, rfl, f.apply_extends n.tree, Or.inl rfl⟩
  | received h parent time catchingUp a he ha =>
    have hk := n.anchor.accept_keeps n.tree h parent catchingUp
    rw [ha] at hk
    exact ⟨hk.network, hk.policy, insert_extends n.tree h parent time, Or.inl hk.current⟩

theorem isChain_step {es : List Event} (hes : ∀ e ∈ es, e.isForward) (n : Node) :
    (n.history es).IsChain fun n m ↦ ∃ e ∈ es, n.Step e m :=
  isChain_history (fun e he n ↦ (e.isChain_step (hes e he) n).imp fun _ _ hs ↦ ⟨e, he, hs⟩) n

theorem of_mem_history {P : Node → Prop} {es : List Event} (hes : ∀ e ∈ es, e.isForward)
    (hP : ∀ ⦃k k' : Node⦄ ⦃e : Event⦄, k.Step e k' → P k → P k') (hn : P n)
    (hm : m ∈ n.history es) : P m := by
  refine (isChain_step hes n).induction P _ ?_ ?_ m hm
  · rintro k k' ⟨e, -, hs⟩ hk
    exact hP hs hk
  · intro hl
    obtain ⟨l, he⟩ := exists_history_eq_cons n es
    simpa only [he, List.head_cons] using hn

theorem pairwise_advances {es : List Event} (hr : n.tree.Reachable)
    (hes : ∀ e ∈ es, e.isForward) : (n.history es).Pairwise Advances := by
  refine ((isChain_step hes n).imp_of_mem_imp ?_).pairwise
  rintro k k' hk - ⟨e, -, hs⟩
  exact hs.advances (of_mem_history hes (fun _ _ _ hs ↦ hs.reachable) hr hk)

/-- Each checkpoint of a run that differs from the one before it rises from it, and any two that
differ lie on one branch of the tree that the run ends with. -/
theorem current_rises (n : Node) (hr : n.tree.Reachable) (es : List Event)
    (hes : ∀ e ∈ es, e.isForward) :
    (n.history es).IsChain (fun m m' ↦ m'.anchor.current ≠ m.anchor.current →
      m'.tree.Rises m.anchor.current m'.anchor.current) ∧
    (n.history es).Pairwise (fun m m' ↦ m'.anchor.current ≠ m.anchor.current →
      (n.run es).tree.Rises m.anchor.current m'.anchor.current) := by
  have hp := pairwise_advances hr hes
  refine ⟨(hp.imp fun ha hne ↦ ha.current.resolve_left hne).isChain, ?_⟩
  refine hp.imp_of_mem fun _ hm' ha hne ↦ ?_
  have hr := ha.current.resolve_left hne
  rcases eq_or_of_pairwise_history hp hm' with he | he
  · rwa [← he]
  · exact hr.extends he.tree

def waiting : Node where
  anchor := { Anchor.new default .strict with
    current := Digest.ofNatLE 0, pending := some (Digest.ofNatLE 2) }
  chain := ⟨.withGenesis (Digest.ofNatLE 0) 0, false⟩
  journal := .empty
  peers := ∅

def arrival : List Event :=
  let h (n : Nat) : Hash := Digest.ofNatLE n
  [.grow (.insert (h 1) (h 0) 30), .acceptPending [], .grow (.insert (h 2) (h 1) 60),
    .grow (.insert (h 3) (h 0) 40), .blockProcessed [] 90, .validate (h 3), .grow (.setBest (h 3))]

theorem current_rises_arrival :
    waiting.tree.Reachable ∧ (∀ e ∈ arrival, e.isForward) ∧
      ((waiting.history arrival).IsChain (fun m m' ↦ m'.anchor.current ≠ m.anchor.current →
        m'.tree.Rises m.anchor.current m'.anchor.current) ∧
      (waiting.history arrival).Pairwise (fun m m' ↦ m'.anchor.current ≠ m.anchor.current →
        (waiting.run arrival).tree.Rises m.anchor.current m'.anchor.current)) ∧
      (waiting.run arrival).anchor.current = Digest.ofNatLE 2 := by
  have hr : waiting.tree.Reachable := ⟨Digest.ofNatLE 0, 0, [], rfl⟩
  have hes : ∀ e ∈ arrival, e.isForward := by simp [arrival, Event.isForward]
  exact ⟨hr, hes, current_rises waiting hr arrival hes, by decide +kernel⟩

end Node

end ChainAnchor
