import ChainAnchor.Proofs.Node.Run
import ChainAnchor.Proofs.Store.Journal

namespace ChainAnchor.Node

variable {n m : Node} {h : Hash}

def Durable (n : Node) : Prop := n.journal.persisted = .ok (some n.anchor.current)

structure Holds (n : Node) (h : Hash) : Prop where
  current : n.anchor.current = h
  persisted : n.journal.persisted = .ok (some h)

structure Unmoved (n m : Node) : Prop where
  current : m.anchor.current = n.anchor.current
  message : m.anchor.message = n.anchor.message
  persisted : m.journal.persisted = n.journal.persisted

theorem Holds.durable (hh : n.Holds h) : n.Durable := by
  rw [Durable, hh.current]
  exact hh.persisted

theorem Unmoved.refl (n : Node) : n.Unmoved n := ⟨rfl, rfl, rfl⟩

theorem Unmoved.trans {k : Node} (h₁ : n.Unmoved m) (h₂ : m.Unmoved k) : n.Unmoved k :=
  ⟨h₂.current.trans h₁.current, h₂.message.trans h₁.message, h₂.persisted.trans h₁.persisted⟩

theorem Unmoved.durable (hu : n.Unmoved m) (hn : n.Durable) : m.Durable := by
  rw [Durable, hu.persisted, hu.current]
  exact hn

theorem Kept.unmoved (hk : n.Kept m) : n.Unmoved m :=
  ⟨hk.anchor.current, hk.anchor.message, congrArg Journal.persisted hk.journal⟩

theorem Writing.unmoved {e : AnchorError} (hw : n.Writing h (.error e, m)) : n.Unmoved m := by
  cases hw with
  | unsaved e j hp => exact ⟨rfl, rfl, Journal.persisted_of_putCheckpoint_error hp⟩

theorem Writing.holds (hw : n.Writing h (.ok (), m)) : m.Holds h := by
  cases hw with
  | saved j hp => exact ⟨rfl, Journal.persisted_of_putCheckpoint_ok hp⟩

theorem Adoption.unmoved {e : AnchorError} (ha : n.Adoption h (.error e, m)) : n.Unmoved m := by
  cases ha with
  | refused e c hc => exact ⟨rfl, rfl, rfl⟩
  | unsaved e c j hc hp => exact ⟨rfl, rfl, Journal.persisted_of_putCheckpoint_error hp⟩

theorem Adoption.holds (ha : n.Adoption h (.ok (), m)) : m.Holds h := by
  cases ha with
  | saved c j hc hp => exact ⟨rfl, Journal.persisted_of_putCheckpoint_ok hp⟩

theorem Holds.promote (hh : n.Holds h) (ids : List PeerId) : (n.promote ids).Holds h := by
  rw [Node.promote]
  dsimp only
  split <;> exact ⟨hh.current, hh.persisted⟩

theorem Acceptance.unmoved {ids : List PeerId} {r : Except AnchorError Bool}
    (ha : n.Acceptance ids (r, m)) (hr : r ≠ .ok true) : n.Unmoved m := by
  cases ha with
  | idle => exact .refl n
  | dropped h r a hp hc hv => exact (dropped_kept hv).unmoved
  | failed h e m hp hc hj hm => exact hm.unmoved
  | accepted => exact absurd rfl hr

theorem Acceptance.holds {ids : List PeerId} (ha : n.Acceptance ids (.ok true, m)) :
    ∃ h, n.anchor.pending = some h ∧ m.Holds h := by
  cases ha with
  | accepted h m hp hc hj hm => exact ⟨h, hp, hm.holds.promote ids⟩

theorem Processing.unmoved {c : Checkpoint} {sender : Option PeerId}
    {r : Except AnchorError Bool} (hp : n.Processing c sender (r, m)) (hr : r ≠ .ok true) :
    n.Unmoved m := by
  cases hp with
  | unsigned => exact .refl n
  | awaited d => exact (n.await_kept d sender).unmoved
  | invalid d e a hd hc hv => exact (invalid_kept hv).unmoved
  | older => exact .refl n
  | failed d e m hd hc hj hm => exact hm.unmoved
  | accepted => exact absurd rfl hr

theorem Processing.holds {c : Checkpoint} {sender : Option PeerId}
    (hp : n.Processing c sender (.ok true, m)) :
    ∃ d, c.check n.anchor.network.masterKey = .ok d ∧ m.Holds d.block := by
  cases hp with
  | accepted d m hd hc hj hm => exact ⟨d, hd, hm.holds.current, hm.holds.persisted⟩

theorem Sending.unmoved {ids : List PeerId} {r : Except AnchorError Bool}
    (hs : n.Sending h ids (r, m)) (hr : r ≠ .ok true) : n.Unmoved m := by
  cases hs with
  | unsigned => exact .refl n
  | withheld c r m hp => exact hp.unmoved hr
  | relayed => exact absurd rfl hr

theorem Preparation.unmoved {r : Except AnchorError Unit} (hp : n.Preparation (r, m)) :
    n.Unmoved m := by
  cases hp <;> exact ⟨rfl, rfl, rfl⟩

theorem Resetting.unmoved {r : Except AnchorError Bool} (hs : n.Resetting (r, m))
    (hr : r ≠ .ok true) : n.Unmoved m := by
  cases hs with
  | unprepared e m hp => exact hp.unmoved
  | groundless m hp => exact hp.unmoved
  | unsaved m p e m' hp hf hw => exact hp.unmoved.trans hw.unmoved
  | saved => exact absurd rfl hr

theorem Resetting.durable {r : Except AnchorError Bool} (hs : n.Resetting (r, m))
    (hn : n.Durable) : m.Durable := by
  by_cases hr : r = .ok true
  · subst hr
    cases hs with
    | saved m p m' hp hf hw => exact hw.holds.durable
  · exact (hs.unmoved hr).durable hn

theorem Writing.durable {r : Except AnchorError Unit} (hw : n.Writing h (r, m))
    (hn : n.Durable) : m.Durable := by
  rcases r with e | u
  · exact hw.unmoved.durable hn
  · exact hw.holds.durable

theorem Acceptance.durable {ids : List PeerId} {r : Except AnchorError Bool}
    (ha : n.Acceptance ids (r, m)) (hn : n.Durable) : m.Durable := by
  by_cases hr : r = .ok true
  · subst hr
    obtain ⟨h, -, hh⟩ := ha.holds
    exact hh.durable
  · exact (ha.unmoved hr).durable hn

theorem Processing.durable {c : Checkpoint} {sender : Option PeerId}
    {r : Except AnchorError Bool} (hp : n.Processing c sender (r, m)) (hn : n.Durable) :
    m.Durable := by
  by_cases hr : r = .ok true
  · subst hr
    obtain ⟨d, -, hh⟩ := hp.holds
    exact hh.durable
  · exact (hp.unmoved hr).durable hn

theorem Sending.durable {ids : List PeerId} {r : Except AnchorError Bool}
    (hs : n.Sending h ids (r, m)) (hn : n.Durable) : m.Durable := by
  cases hs with
  | unsigned => exact hn
  | withheld c r m hp => exact hp.durable hn
  | relayed k c m hk hs hp => exact hp.durable hn

theorem Following.durable {ids : List PeerId} {now : Int64} {r : Except AnchorError Unit × Node}
    (hf : n.Following ids now r) (hn : n.Durable) : r.2.Durable := by
  have ha : (n.acceptPending ids).2.Durable := (n.acceptPending_outcome ids).durable hn
  rcases hf.sends with he | ⟨h, sent, hs⟩
  · exact he ▸ ha
  · exact hs.durable ha

theorem unmoved_of_masterKey {k : Except StoreError (Option String)} {j : Journal}
    (hj : n.journal.masterKey = (k, j)) : n.Unmoved { n with journal := j } := by
  have hp := n.journal.masterKey_persisted
  rw [hj] at hp
  exact ⟨rfl, rfl, hp⟩

theorem unmoved_of_putMasterKey {k : Except StoreError (Option String)} {s : String}
    {j j' : Journal} {r : Except StoreError Unit} (hj : n.journal.masterKey = (k, j))
    (hj' : j.putMasterKey s = (r, j')) : n.Unmoved { n with journal := j' } := by
  have hp := j.putMasterKey_persisted s
  rw [hj'] at hp
  exact ⟨rfl, rfl, hp.trans (unmoved_of_masterKey hj).persisted⟩

theorem KeyCheck.unmoved {e : AnchorError} (hk : n.KeyCheck (.error e, m)) : n.Unmoved m := by
  generalize hr : (Except.error e, m) = r at hk
  cases hk with
  | unread e j hj => cases hr; exact unmoved_of_masterKey hj
  | kept => cases hr
  | unsaved k j e j' hj hne hj' => cases hr; exact unmoved_of_putMasterKey hj hj'
  | saved => cases hr
  | reset k j j' r m hj hne hj' ht hs =>
    obtain ⟨hr, rfl⟩ := Prod.mk.inj hr
    exact (unmoved_of_putMasterKey hj hj').trans (hs.unmoved fun he ↦ by rw [he] at hr; cases hr)

theorem KeyCheck.durable {r : Except AnchorError Unit} (hk : n.KeyCheck (r, m))
    (hn : n.Durable) : m.Durable := by
  cases hk with
  | unread e j hj => exact (unmoved_of_masterKey hj).durable hn
  | kept j hj => exact (unmoved_of_masterKey hj).durable hn
  | unsaved k j e j' hj hne hj' => exact (unmoved_of_putMasterKey hj hj').durable hn
  | saved k j j' hj hne hj' ht => exact (unmoved_of_putMasterKey hj hj').durable hn
  | reset k j j' r m hj hne hj' ht hr =>
    exact hr.durable ((unmoved_of_putMasterKey hj hj').durable hn)

theorem Loading.durable (hl : n.Loading (.ok (), m)) : m.Durable := by
  cases hl with
  | read h j hj => exact Journal.persisted_of_checkpoint hj
  | written j r hj hw => exact hw.holds.durable

theorem durable_of_start {w : Network} {p : Policy} {c : Chain} {j : Journal} {ps : Peers}
    (hs : start w p c j ps = (.ok (), n)) : n.Durable := by
  have hn := start_outcome w p c j ps
  rw [hs] at hn
  cases hn with
  | checked m r hl hk => exact hk.durable hl.durable

theorem receive_unmoved (n : Node) (h parent : Hash) (time : Int64) (catchingUp : Bool) :
    n.Unmoved (n.receive h parent time catchingUp) := by
  have hk := n.anchor.accept_keeps n.tree h parent catchingUp
  rw [receive]
  rcases ha : n.anchor.accept n.tree h parent catchingUp with ⟨e | u, a⟩
  · rw [ha] at hk
    exact (kept_of_keeps hk).unmoved
  · rw [ha] at hk
    exact ⟨hk.current, hk.message, rfl⟩

theorem Durable.apply (hn : n.Durable) (e : Event) : (e.apply n).Durable := by
  cases e with
  | process c sender => exact (n.process_outcome c sender).durable hn
  | acceptPending ids => exact (n.acceptPending_outcome ids).durable hn
  | send h ids => exact (n.send_outcome h ids).durable hn
  | blockProcessed ids now => exact (n.blockProcessed_outcome ids now).durable hn
  | validate h => exact (n.validate_kept h).unmoved.durable hn
  | accept h parent catchingUp =>
    have hk := n.anchor.accept_keeps n.tree h parent catchingUp
    exact (kept_of_keeps hk).unmoved.durable hn
  | receive h parent time catchingUp =>
    exact (n.receive_unmoved h parent time catchingUp).durable hn
  | askForPending peer => exact (n.askForPending_kept peer).unmoved.durable hn
  | setMasterKey secret =>
    exact (kept_of_keeps (n.anchor.setMasterKey_keeps secret)).unmoved.durable hn
  | reset => exact n.reset_outcome.durable hn
  | write h => exact (n.write_outcome h).durable hn
  | checkMasterKey => exact n.checkMasterKey_outcome.durable hn
  | grow f => exact hn
  | refuse b => exact hn
  | useChain c => exact hn

theorem Durable.run (hn : n.Durable) (es : List Event) : (n.run es).Durable := by
  induction es generalizing n with
  | nil => exact hn
  | cons e es ih => exact ih (hn.apply e)

/-- What the result of an operation says about the checkpoint, in memory and in the store. -/
structure Transactional (n : Node) : Prop where
  process_unmoved (c : Checkpoint) (sender : Option PeerId) :
    (n.process c sender).1 ≠ .ok true → n.Unmoved (n.process c sender).2
  process_holds (c : Checkpoint) (sender : Option PeerId) : (n.process c sender).1 = .ok true →
    ∃ d, c.check n.anchor.network.masterKey = .ok d ∧ (n.process c sender).2.Holds d.block
  acceptPending_unmoved (ids : List PeerId) :
    (n.acceptPending ids).1 ≠ .ok true → n.Unmoved (n.acceptPending ids).2
  acceptPending_holds (ids : List PeerId) : (n.acceptPending ids).1 = .ok true →
    ∃ h, n.anchor.pending = some h ∧ (n.acceptPending ids).2.Holds h
  send_unmoved (h : Hash) (ids : List PeerId) :
    (n.send h ids).1 ≠ .ok true → n.Unmoved (n.send h ids).2
  write_unmoved (h : Hash) (e : AnchorError) :
    (n.write h).1 = .error e → n.Unmoved (n.write h).2
  reset_unmoved (e : AnchorError) : n.reset.1 = .error e → n.Unmoved n.reset.2

theorem transactional (n : Node) : n.Transactional where
  process_unmoved c sender := (n.process_outcome c sender).unmoved
  process_holds c sender hr := by
    have hp : n.Processing c sender ((n.process c sender).1, (n.process c sender).2) :=
      n.process_outcome c sender
    rw [hr] at hp
    exact hp.holds
  acceptPending_unmoved ids := (n.acceptPending_outcome ids).unmoved
  acceptPending_holds ids hr := by
    have ha : n.Acceptance ids ((n.acceptPending ids).1, (n.acceptPending ids).2) :=
      n.acceptPending_outcome ids
    rw [hr] at ha
    exact ha.holds
  send_unmoved h ids := (n.send_outcome h ids).unmoved
  write_unmoved h e hr := by
    have hw : n.Writing h ((n.write h).1, (n.write h).2) := n.write_outcome h
    rw [hr] at hw
    exact hw.unmoved
  reset_unmoved e hr := by
    have hs : n.Resetting (n.reset.1, n.reset.2) := n.reset_outcome
    rw [hr] at hs
    exact hs.unmoved nofun

/-- A node that has started keeps its checkpoint in memory and in the store alike, whatever happens
to it and whichever calls of the store fail. -/
theorem durable_run {w : Network} {p : Policy} {c : Chain} {j : Journal} {ps : Peers} {n : Node}
    (hs : start w p c j ps = (.ok (), n)) (es : List Event) :
    (n.run es).Durable ∧
      ((n.run es).journal.isFailing .read = false →
        (n.run es).journal.checkpoint.1 = .ok (some (n.run es).anchor.current)) ∧
      (n.run es).Transactional := by
  have hd := (durable_of_start hs).run es
  refine ⟨hd, fun hr ↦ ?_, transactional _⟩
  rw [Journal.checkpoint_eq, hr]
  exact hd

def decaying : Except AnchorError Unit × Node :=
  start default .strict ⟨.withGenesis (Digest.ofNatLE 0) 0, false⟩
    { Journal.empty with fails := fun k c ↦ c = .commit && 11 < k } ∅

theorem durable_run_decaying :
    let es := [Event.write (Digest.ofNatLE 1), .write (Digest.ofNatLE 2)]
    start default .strict ⟨.withGenesis (Digest.ofNatLE 0) 0, false⟩
        { Journal.empty with fails := fun k c ↦ c = .commit && 11 < k } ∅ =
      (.ok (), decaying.2) ∧
      ((decaying.2.run es).Durable ∧
        ((decaying.2.run es).journal.isFailing .read = false →
          (decaying.2.run es).journal.checkpoint.1 =
            .ok (some (decaying.2.run es).anchor.current)) ∧
        (decaying.2.run es).Transactional) ∧
      (decaying.2.run es).anchor.current = Digest.ofNatLE 1 := by
  intro es
  have hs : decaying = (.ok (), decaying.2) := Prod.ext (by decide +kernel) rfl
  exact ⟨hs, durable_run hs es, by decide +kernel⟩

end ChainAnchor.Node
