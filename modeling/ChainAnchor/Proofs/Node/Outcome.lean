import ChainAnchor.Node

namespace ChainAnchor

namespace Anchor

theorem validate_fst (a : Anchor) (t : BlockTree) (h : Hash) :
    (a.validate t h).1 = judge t a.current h := by
  rw [validate]
  split <;> simp_all

/-- A judgement changes no more than the note of a conflict. -/
theorem validate_snd (a : Anchor) (t : BlockTree) (h : Hash) :
    (a.validate t h).2 = a ∨ (a.validate t h).2 = { a with invalid := some h } := by
  rw [validate]
  split
  · exact Or.inr rfl
  · exact Or.inl rfl

theorem eq_or_eq_of_validate {a a' : Anchor} {t : BlockTree} {h : Hash}
    {r : Except AnchorError Bool} (hv : a.validate t h = (r, a')) :
    a' = a ∨ a' = { a with invalid := some h } := by
  have hs := a.validate_snd t h
  rwa [hv] at hs

theorem validate_of_judge {a : Anchor} {t : BlockTree} {h : Hash} {b : Bool}
    (hj : judge t a.current h = .ok b) : a.validate t h = (.ok b, a) := by
  rw [validate, hj]

structure Keeps (a a' : Anchor) : Prop where
  network : a'.network = a.network
  policy : a'.policy = a.policy
  current : a'.current = a.current
  message : a'.message = a.message

theorem Keeps.refl (a : Anchor) : a.Keeps a := ⟨rfl, rfl, rfl, rfl⟩

theorem validate_keeps (a : Anchor) (t : BlockTree) (h : Hash) : a.Keeps (a.validate t h).2 := by
  rcases a.validate_snd t h with he | he <;> rw [he] <;> exact ⟨rfl, rfl, rfl, rfl⟩

/-- A decision on a block changes no more than the note that the checkpoint was violated. -/
theorem accept_snd (a : Anchor) (t : BlockTree) (h parent : Hash) (catchingUp : Bool) :
    (a.accept t h parent catchingUp).2 = a ∨
      (a.accept t h parent catchingUp).2 = { a with violated := true } := by
  rw [accept]
  split
  · exact Or.inl rfl
  · dsimp only
    split
    · exact Or.inl rfl
    · split
      · exact Or.inl rfl
      · split
        · exact Or.inl rfl
        · exact Or.inr rfl
        · exact Or.inl rfl

theorem accept_keeps (a : Anchor) (t : BlockTree) (h parent : Hash) (catchingUp : Bool) :
    a.Keeps (a.accept t h parent catchingUp).2 := by
  rcases a.accept_snd t h parent catchingUp with he | he <;> rw [he] <;> exact ⟨rfl, rfl, rfl, rfl⟩

theorem setMasterKey_snd (a : Anchor) (secret : String) :
    (a.setMasterKey secret).2 = a ∨
      ∃ k, (a.setMasterKey secret).2 = { a with masterKey := some k } := by
  rw [setMasterKey]
  split
  · exact Or.inl rfl
  next k hk =>
    split
    · exact Or.inl rfl
    · exact Or.inr ⟨k, rfl⟩

theorem setMasterKey_keeps (a : Anchor) (secret : String) : a.Keeps (a.setMasterKey secret).2 := by
  rcases a.setMasterKey_snd secret with he | ⟨k, he⟩ <;> rw [he] <;> exact ⟨rfl, rfl, rfl, rfl⟩

/-- The checkpoint may be another one, and another block may be waited for, but what was found out
about blocks and checkpoints is as it was. -/
structure Rebased (a a' : Anchor) : Prop where
  network : a'.network = a.network
  invalid : a'.invalid = a.invalid
  message : a'.message = a.message

theorem Rebased.trans {a a' a'' : Anchor} (h₁ : a.Rebased a') (h₂ : a'.Rebased a'') :
    a.Rebased a'' :=
  ⟨h₂.network.trans h₁.network, h₂.invalid.trans h₁.invalid, h₂.message.trans h₁.message⟩

end Anchor

namespace Node

structure Kept (n m : Node) : Prop where
  anchor : n.anchor.Keeps m.anchor
  chain : m.chain = n.chain
  journal : m.journal = n.journal

theorem kept_of_keeps {n : Node} {a : Anchor} (ha : n.anchor.Keeps a) :
    n.Kept { n with anchor := a } := ⟨ha, rfl, rfl⟩

theorem validate_kept (n : Node) (h : Hash) : n.Kept (n.validate h).2 :=
  kept_of_keeps (n.anchor.validate_keeps n.tree h)

theorem invalid_kept {n : Node} {h : Hash} {r : Except AnchorError Bool} {a : Anchor}
    (hv : n.anchor.validate n.tree h = (r, a)) : n.Kept { n with anchor := a } := by
  have hk := n.anchor.validate_keeps n.tree h
  rw [hv] at hk
  exact kept_of_keeps hk

theorem dropped_kept {n : Node} {h : Hash} {r : Except AnchorError Bool} {a : Anchor}
    (hv : n.anchor.validate n.tree h = (r, a)) : n.Kept { n with anchor := a.forget } := by
  have hk := (invalid_kept hv).anchor
  exact kept_of_keeps ⟨hk.network, hk.policy, hk.current, hk.message⟩

theorem await_anchor (n : Node) (c : Checkpoint) (sender : Option PeerId) :
    (n.await c sender).anchor = n.anchor.postpone c.block c := by
  cases sender <;> rfl

theorem await_kept (n : Node) (c : Checkpoint) (sender : Option PeerId) :
    n.Kept (n.await c sender) := by
  cases sender <;> exact ⟨⟨rfl, rfl, rfl, rfl⟩, rfl, rfl⟩

theorem askForPending_kept (n : Node) (peer : PeerId) : n.Kept (n.askForPending peer).2 := by
  rw [askForPending]
  split
  · exact ⟨.refl _, rfl, rfl⟩
  · split <;> exact ⟨.refl _, rfl, rfl⟩

theorem validate_outcome (n : Node) (h : Hash) :
    (Anchor.judge n.tree n.anchor.current h = .ok true ∧ n.validate h = (.ok true, n)) ∨
    (Anchor.judge n.tree n.anchor.current h = .ok false ∧ n.validate h = (.ok false, n)) ∨
    ∃ e a, n.anchor.validate n.tree h = (.error e, a) ∧
      n.validate h = (.error e, { n with anchor := a }) := by
  have hv := n.anchor.validate_fst n.tree h
  rw [validate]
  rcases hr : n.anchor.validate n.tree h with ⟨e | b, a⟩
  · exact Or.inr (Or.inr ⟨e, a, rfl, rfl⟩)
  · rw [hr] at hv
    rw [Anchor.validate_of_judge hv.symm] at hr
    cases hr
    cases b with
    | true => exact Or.inl ⟨hv.symm, rfl⟩
    | false => exact Or.inr (Or.inl ⟨hv.symm, rfl⟩)

inductive Adoption (n : Node) (h : Hash) : Except AnchorError Unit × Node → Prop
  | refused (e : ChainError) (c : Chain) : n.chain.reach h = (.error e, c) →
      Adoption n h
        (.error (.chain e), { n with chain := c, anchor := { n.anchor with invalid := some h } })
  | unsaved (e : StoreError) (c : Chain) (j : Journal) : n.chain.reach h = (.ok (), c) →
      n.journal.putCheckpoint h = (.error e, j) →
      Adoption n h (.error (.store e), { n with chain := c, journal := j })
  | saved (c : Chain) (j : Journal) : n.chain.reach h = (.ok (), c) →
      n.journal.putCheckpoint h = (.ok (), j) →
      Adoption n h
        (.ok (), { n with chain := c, journal := j, anchor := { n.anchor with current := h } })

theorem adopt_outcome (n : Node) (h : Hash) : n.Adoption h (n.adopt h) := by
  rw [adopt, reach]
  rcases hr : n.chain.reach h with ⟨e | u, c⟩
  · exact .refused e c hr
  rcases hp : n.journal.putCheckpoint h with ⟨e | v, j⟩
  · simp only [write, hp]
    exact .unsaved e c j hr hp
  · simp only [write, hp]
    exact .saved c j hr hp

inductive Acceptance (n : Node) (ids : List PeerId) : Except AnchorError Bool × Node → Prop
  | idle : (∀ h, n.anchor.pending = some h → n.tree.contains h = false) →
      Acceptance n ids (.ok false, n)
  | dropped (h : Hash) (r : Except AnchorError Bool) (a : Anchor) : n.anchor.pending = some h →
      n.tree.contains h = true → n.anchor.validate n.tree h = (r, a) → r ≠ .ok true →
      Acceptance n ids (.ok false, { n with anchor := a.forget })
  | failed (h : Hash) (e : AnchorError) (m : Node) : n.anchor.pending = some h →
      n.tree.contains h = true → Anchor.judge n.tree n.anchor.current h = .ok true →
      n.Adoption h (.error e, m) → Acceptance n ids (.error e, m)
  | accepted (h : Hash) (m : Node) : n.anchor.pending = some h →
      n.tree.contains h = true → Anchor.judge n.tree n.anchor.current h = .ok true →
      n.Adoption h (.ok (), m) → Acceptance n ids (.ok true, m.promote ids)

theorem acceptPending_outcome (n : Node) (ids : List PeerId) :
    n.Acceptance ids (n.acceptPending ids) := by
  rw [acceptPending]
  cases hp : n.anchor.pending with
  | none => exact .idle fun h hh ↦ by rw [hp] at hh; cases hh
  | some h =>
    cases hc : n.tree.contains h with
    | false =>
      simp only [hc, Bool.not_false, if_true]
      refine .idle fun x hx ↦ ?_
      rw [hp] at hx
      cases hx
      exact hc
    | true =>
      simp only [hc, Bool.not_true, Bool.false_eq_true, if_false]
      rcases n.validate_outcome h with ⟨hj, hv⟩ | ⟨hj, hv⟩ | ⟨e, a, ha, hv⟩
      · have ha := n.adopt_outcome h
        rcases hm : n.adopt h with ⟨e | u, m⟩
        · rw [hm] at ha
          simp only [hv, hm]
          exact .failed h e m hp hc hj ha
        · rw [hm] at ha
          simp only [hv, hm]
          exact .accepted h m hp hc hj ha
      · simp only [hv]
        exact .dropped h _ n.anchor hp hc (Anchor.validate_of_judge hj) (by simp)
      · simp only [hv]
        exact .dropped h _ a hp hc ha (by simp)

/-- A checkpoint is not signed by the master key, waits for its block, is refused or takes effect;
one that is older than the current checkpoint is ignored. -/
inductive Processing (n : Node) (c : Checkpoint) (sender : Option PeerId) :
    Except AnchorError Bool × Node → Prop
  | unsigned (e : CheckpointError) : c.check n.anchor.network.masterKey = .error e →
      Processing n c sender (.ok false, n)
  | awaited (d : Checkpoint) : c.check n.anchor.network.masterKey = .ok d →
      n.tree.contains d.block = false → Processing n c sender (.ok false, n.await d sender)
  | invalid (d : Checkpoint) (e : AnchorError) (a : Anchor) :
      c.check n.anchor.network.masterKey = .ok d → n.tree.contains d.block = true →
      n.anchor.validate n.tree d.block = (.error e, a) →
      Processing n c sender (.error e, { n with anchor := a })
  | older (d : Checkpoint) : c.check n.anchor.network.masterKey = .ok d →
      n.tree.contains d.block = true → Anchor.judge n.tree n.anchor.current d.block = .ok false →
      Processing n c sender (.ok false, n)
  | failed (d : Checkpoint) (e : AnchorError) (m : Node) :
      c.check n.anchor.network.masterKey = .ok d → n.tree.contains d.block = true →
      Anchor.judge n.tree n.anchor.current d.block = .ok true →
      n.Adoption d.block (.error e, m) → Processing n c sender (.error e, m)
  | accepted (d : Checkpoint) (m : Node) : c.check n.anchor.network.masterKey = .ok d →
      n.tree.contains d.block = true → Anchor.judge n.tree n.anchor.current d.block = .ok true →
      n.Adoption d.block (.ok (), m) →
      Processing n c sender (.ok true, { m with anchor := { m.anchor.forget with message := d } })

theorem process_outcome (n : Node) (c : Checkpoint) (sender : Option PeerId) :
    n.Processing c sender (n.process c sender) := by
  rw [process]
  cases hd : c.check n.anchor.network.masterKey with
  | error e => exact .unsigned e hd
  | ok d =>
    cases hc : n.tree.contains d.block with
    | false =>
      simp only [hc, Bool.not_false, if_true]
      exact .awaited d hd hc
    | true =>
      simp only [hc, Bool.not_true, Bool.false_eq_true, if_false]
      rcases n.validate_outcome d.block with ⟨hj, hv⟩ | ⟨hj, hv⟩ | ⟨e, a, ha, hv⟩
      · have ha := n.adopt_outcome d.block
        rcases hm : n.adopt d.block with ⟨e | u, m⟩
        · rw [hm] at ha
          simp only [hv, hm]
          exact .failed d e m hd hc hj ha
        · rw [hm] at ha
          simp only [hv, hm]
          exact .accepted d m hd hc hj ha
      · simp only [hv]
        exact .older d hd hc hj
      · simp only [hv]
        exact .invalid d e a hd hc ha

theorem process_of_unknown {n : Node} {c d : Checkpoint} {sender : Option PeerId}
    (hd : c.check n.anchor.network.masterKey = .ok d) (hc : n.tree.contains d.block = false) :
    n.process c sender = (.ok false, n.await d sender) := by
  simp only [process, hd, hc, Bool.not_false, if_true]

inductive Sending (n : Node) (h : Hash) (ids : List PeerId) :
    Except AnchorError Bool × Node → Prop
  | unsigned (e : AnchorError) :
      (∀ k c, n.anchor.masterKey = some k → (Checkpoint.new h).sign k ≠ .ok c) →
      Sending n h ids (.error e, n)
  | withheld (c : Checkpoint) (r : Except AnchorError Bool) (m : Node) :
      n.Processing c none (r, m) → r ≠ .ok true →
      (∃ k, n.anchor.masterKey = some k ∧ (Checkpoint.new h).sign k = .ok c) →
      Sending n h ids (r, m)
  | relayed (k : PrivateKey) (c : Checkpoint) (m : Node) : n.anchor.masterKey = some k →
      (Checkpoint.new h).sign k = .ok c → n.Processing c none (.ok true, m) →
      Sending n h ids (.ok true, m.relay ids c)

theorem send_outcome (n : Node) (h : Hash) (ids : List PeerId) :
    n.Sending h ids (n.send h ids) := by
  rw [send]
  cases hk : n.anchor.masterKey with
  | none => exact .unsigned _ fun k c hk' ↦ by rw [hk] at hk'; cases hk'
  | some k =>
    cases hs : (Checkpoint.new h).sign k with
    | error e =>
      simp only [hs]
      refine .unsigned _ fun k' c hk' hs' ↦ ?_
      obtain rfl := Option.some.inj (hk.symm.trans hk')
      cases hs.symm.trans hs'
    | ok c =>
      have hp := n.process_outcome c none
      rcases hm : n.process c none with ⟨e | - | -, m⟩
      · rw [hm] at hp
        simp only [hs, hm]
        exact .withheld c _ m hp (by simp) ⟨k, hk, hs⟩
      · rw [hm] at hp
        simp only [hs, hm]
        exact .withheld c _ m hp (by simp) ⟨k, hk, hs⟩
      · rw [hm] at hp
        simp only [hs, hm]
        exact .relayed k c m hk hs hp

inductive Following (n : Node) (ids : List PeerId) (now : Int64) :
    Except AnchorError Unit × Node → Prop
  | failed (e : AnchorError) (m : Node) : n.acceptPending ids = (.error e, m) →
      Following n ids now (.error e, m)
  | silent (b : Bool) (m : Node) : n.acceptPending ids = (.ok b, m) →
      (m.anchor.masterKey = none ∨ m.tree.isCatchingUp m.anchor.network now = true ∨
        m.tree.selected = m.anchor.current) → Following n ids now (.ok (), m)
  | unsent (b : Bool) (m : Node) (e : AnchorError) (m' : Node) :
      n.acceptPending ids = (.ok b, m) → m.tree.isCatchingUp m.anchor.network now = false →
      m.tree.selected ≠ m.anchor.current → m.Sending m.tree.selected ids (.error e, m') →
      Following n ids now (.error e, m')
  | sent (b : Bool) (m : Node) (sent : Bool) (m' : Node) :
      n.acceptPending ids = (.ok b, m) → m.tree.isCatchingUp m.anchor.network now = false →
      m.tree.selected ≠ m.anchor.current → m.Sending m.tree.selected ids (.ok sent, m') →
      Following n ids now (.ok (), m')

theorem blockProcessed_outcome (n : Node) (ids : List PeerId) (now : Int64) :
    n.Following ids now (n.blockProcessed ids now) := by
  rw [blockProcessed]
  rcases ha : n.acceptPending ids with ⟨e | b, m⟩
  · exact .failed e m ha
  dsimp only
  split
  next hq =>
    refine .silent b m ha ?_
    rw [Bool.or_eq_true, Option.isNone_iff_eq_none] at hq
    exact hq.imp id Or.inl
  next hq =>
    rw [Bool.or_eq_true, not_or, Bool.not_eq_true, Bool.not_eq_true] at hq
    split
    next hc => exact .silent b m ha (.inr (.inr hc))
    next hc =>
      have hs := m.send_outcome m.tree.selected ids
      rcases hm : m.send m.tree.selected ids with ⟨e | sent, m'⟩
      · rw [hm] at hs
        exact .unsent b m e m' ha hq.2 hc hs
      · rw [hm] at hs
        exact .sent b m sent m' ha hq.2 hc hs

/-- What follows a block is at most one sending after the pending checkpoint has been dealt with. -/
theorem Following.sends {n : Node} {ids : List PeerId} {now : Int64}
    {r : Except AnchorError Unit × Node} (hf : n.Following ids now r) :
    r.2 = (n.acceptPending ids).2 ∨
      ∃ h sent, (n.acceptPending ids).2.Sending h ids (sent, r.2) := by
  cases hf with
  | failed e m hm => exact Or.inl (by rw [hm])
  | silent b m hm => exact Or.inl (by rw [hm])
  | unsent b m e m' hm hc hne hs =>
    rw [hm]
    exact Or.inr ⟨_, _, hs⟩
  | sent b m sent m' hm hc hne hs =>
    rw [hm]
    exact Or.inr ⟨_, _, hs⟩

inductive Writing (n : Node) (h : Hash) : Except AnchorError Unit × Node → Prop
  | unsaved (e : StoreError) (j : Journal) : n.journal.putCheckpoint h = (.error e, j) →
      Writing n h (.error (.store e), { n with journal := j })
  | saved (j : Journal) : n.journal.putCheckpoint h = (.ok (), j) →
      Writing n h (.ok (), { n with journal := j, anchor := { n.anchor with current := h } })

theorem write_outcome (n : Node) (h : Hash) : n.Writing h (n.write h) := by
  rw [write]
  rcases hp : n.journal.putCheckpoint h with ⟨e | v, j⟩
  · exact .unsaved e j hp
  · exact .saved j hp

inductive Preparation (n : Node) : Except AnchorError Unit × Node → Prop
  | empty : n.anchor.network.descending = [] → Preparation n (.ok (), n)
  | refused (p : UInt64 × Hash) (l : List (UInt64 × Hash)) (e : ChainError) (c : Chain) :
      n.anchor.network.descending = p :: l → n.tree.contains p.2 = true →
      n.chain.reach p.2 = (.error e, c) →
      Preparation n (.error (.chain e), { n with chain := c })
  | reached (p : UInt64 × Hash) (l : List (UInt64 × Hash)) (c : Chain) :
      n.anchor.network.descending = p :: l → n.tree.contains p.2 = true →
      n.chain.reach p.2 = (.ok (), c) → Preparation n (.ok (), { n with chain := c })
  | awaited (p : UInt64 × Hash) (l : List (UInt64 × Hash)) :
      n.anchor.network.descending = p :: l → n.tree.contains p.2 = false →
      Preparation n (.ok (), { n with anchor := n.anchor.postpone p.2 default })

theorem reachHardened_outcome (n : Node) : n.Preparation n.reachHardened := by
  rw [reachHardened]
  split
  next hd => exact .empty hd
  next height h l hd =>
    split
    next hc =>
      rw [reach]
      rcases hr : n.chain.reach h with ⟨e | u, c⟩
      · exact .refused (height, h) l e c hd hc hr
      · exact .reached (height, h) l c hd hc hr
    next hc => exact .awaited (height, h) l hd (by simpa using hc)

inductive Resetting (n : Node) : Except AnchorError Bool × Node → Prop
  | unprepared (e : AnchorError) (m : Node) : n.Preparation (.error e, m) →
      Resetting n (.error e, m)
  | groundless (m : Node) : n.Preparation (.ok (), m) →
      (m.anchor.network.descending.find? fun p ↦ m.tree.isOnMain p.2) = none →
      Resetting n (.ok false, m)
  | unsaved (m : Node) (p : UInt64 × Hash) (e : AnchorError) (m' : Node) :
      n.Preparation (.ok (), m) →
      (m.anchor.network.descending.find? fun p ↦ m.tree.isOnMain p.2) = some p →
      m.Writing p.2 (.error e, m') → Resetting n (.error e, m')
  | saved (m : Node) (p : UInt64 × Hash) (m' : Node) : n.Preparation (.ok (), m) →
      (m.anchor.network.descending.find? fun p ↦ m.tree.isOnMain p.2) = some p →
      m.Writing p.2 (.ok (), m') → Resetting n (.ok true, m')

theorem reset_outcome (n : Node) : n.Resetting n.reset := by
  rw [reset]
  have hp := n.reachHardened_outcome
  rcases hm : n.reachHardened with ⟨e | u, m⟩
  · rw [hm] at hp
    exact .unprepared e m hp
  rw [hm] at hp
  dsimp only
  split
  next hf => exact .groundless m hp hf
  next height h hf =>
    have hw := m.write_outcome h
    rcases hm' : m.write h with ⟨e | v, m'⟩
    · rw [hm'] at hw
      exact .unsaved m (height, h) e m' hp hf hw
    · rw [hm'] at hw
      exact .saved m (height, h) m' hp hf hw

inductive KeyCheck (n : Node) : Except AnchorError Unit × Node → Prop
  | unread (e : StoreError) (j : Journal) : n.journal.masterKey = (.error e, j) →
      KeyCheck n (.error (.store e), { n with journal := j })
  | kept (j : Journal) : n.journal.masterKey = (.ok (some n.anchor.network.masterKey.toHex), j) →
      KeyCheck n (.ok (), { n with journal := j })
  | unsaved (k : Option String) (j : Journal) (e : StoreError) (j' : Journal) :
      n.journal.masterKey = (.ok k, j) → k ≠ some n.anchor.network.masterKey.toHex →
      j.putMasterKey n.anchor.network.masterKey.toHex = (.error e, j') →
      KeyCheck n (.error (.store e), { n with journal := j' })
  | saved (k : Option String) (j : Journal) (j' : Journal) : n.journal.masterKey = (.ok k, j) →
      k ≠ some n.anchor.network.masterKey.toHex →
      j.putMasterKey n.anchor.network.masterKey.toHex = (.ok (), j') →
      n.anchor.network.isTest = true → KeyCheck n (.ok (), { n with journal := j' })
  | reset (k : Option String) (j : Journal) (j' : Journal) (r : Except AnchorError Bool)
      (m : Node) : n.journal.masterKey = (.ok k, j) →
      k ≠ some n.anchor.network.masterKey.toHex →
      j.putMasterKey n.anchor.network.masterKey.toHex = (.ok (), j') →
      n.anchor.network.isTest = false → Resetting { n with journal := j' } (r, m) →
      KeyCheck n ((match r with
        | .error e => .error e
        | .ok false => .error .resetFailed
        | .ok true => .ok ()), m)

theorem checkMasterKey_outcome (n : Node) : n.KeyCheck n.checkMasterKey := by
  rw [checkMasterKey]
  rcases hk : n.journal.masterKey with ⟨e | k, j⟩
  · exact .unread e j hk
  dsimp only
  split
  next he => exact .kept j (he ▸ hk)
  next he =>
    rcases hp : j.putMasterKey n.anchor.network.masterKey.toHex with ⟨e | u, j'⟩
    · exact .unsaved k j e j' hk he hp
    simp only [masterKeyChanged]
    split
    next ht => exact .saved k j j' hk he hp ht
    next ht =>
      have hr := reset_outcome { n with journal := j' }
      rcases hm : Node.reset { n with journal := j' } with ⟨r, m⟩
      rw [hm] at hr
      have hc := KeyCheck.reset k j j' r m hk he hp (by simpa using ht) hr
      rcases r with e | - | - <;> exact hc

theorem Writing.rebased {n : Node} {h : Hash} {r : Except AnchorError Unit × Node}
    (hw : n.Writing h r) : n.anchor.Rebased r.2.anchor := by
  cases hw <;> exact ⟨rfl, rfl, rfl⟩

theorem Preparation.rebased {n : Node} {r : Except AnchorError Unit × Node}
    (hp : n.Preparation r) : n.anchor.Rebased r.2.anchor := by
  cases hp <;> exact ⟨rfl, rfl, rfl⟩

theorem Resetting.rebased {n : Node} {r : Except AnchorError Bool × Node}
    (hs : n.Resetting r) : n.anchor.Rebased r.2.anchor := by
  cases hs with
  | unprepared e m hp => exact hp.rebased
  | groundless m hp => exact hp.rebased
  | unsaved m p e m' hp hf hw => exact hp.rebased.trans hw.rebased
  | saved m p m' hp hf hw => exact hp.rebased.trans hw.rebased

theorem KeyCheck.rebased {n : Node} {r : Except AnchorError Unit × Node}
    (hk : n.KeyCheck r) : n.anchor.Rebased r.2.anchor := by
  cases hk with
  | reset k j j' r m hj hne hj' ht hs => exact hs.rebased
  | _ => exact ⟨rfl, rfl, rfl⟩

inductive Loading (n : Node) : Except AnchorError Unit × Node → Prop
  | unread (e : StoreError) (j : Journal) : n.journal.checkpoint = (.error e, j) →
      Loading n (.error (.store e), { n with journal := j })
  | read (h : Hash) (j : Journal) : n.journal.checkpoint = (.ok (some h), j) →
      Loading n (.ok (), { n with journal := j, anchor := { n.anchor with current := h } })
  | written (j : Journal) (r : Except AnchorError Unit × Node) :
      n.journal.checkpoint = (.ok none, j) →
      Writing { n with journal := j } n.anchor.network.genesis r → Loading n r

theorem loadCheckpoint_outcome (n : Node) : n.Loading n.loadCheckpoint := by
  rw [loadCheckpoint]
  rcases hc : n.journal.checkpoint with ⟨e | o, j⟩
  · exact .unread e j hc
  · cases o with
    | none => exact .written j _ hc (write_outcome _ _)
    | some h => exact .read h j hc

inductive Starting (n : Node) : Except AnchorError Unit × Node → Prop
  | unloaded (e : AnchorError) (m : Node) : n.Loading (.error e, m) → Starting n (.error e, m)
  | checked (m : Node) (r : Except AnchorError Unit × Node) : n.Loading (.ok (), m) →
      m.KeyCheck r → Starting n r

theorem start_outcome (w : Network) (p : Policy) (c : Chain) (j : Journal) (ps : Peers) :
    Starting ⟨.new w p, c, j, ps⟩ (start w p c j ps) := by
  rw [start]
  have hl := loadCheckpoint_outcome ⟨.new w p, c, j, ps⟩
  rcases hm : loadCheckpoint ⟨.new w p, c, j, ps⟩ with ⟨e | u, m⟩
  · rw [hm] at hl
    exact .unloaded e m hl
  · rw [hm] at hl
    exact .checked m _ hl m.checkMasterKey_outcome

end Node

end ChainAnchor
