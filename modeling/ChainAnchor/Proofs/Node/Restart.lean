import ChainAnchor.Proofs.Codec.Restores
import ChainAnchor.Proofs.Node.Rotation

namespace ChainAnchor

theorem Hex.length_digits (b : Bytes) : (Hex.digits b).length = 2 * b.length := by
  induction b with
  | nil => rfl
  | cons x b ih =>
    rw [digits] at ih
    simp only [digits, List.flatMap_cons, List.length_append, List.length_cons, List.length_nil, ih]
    omega

theorem Utf8.size_utf8Encode (l : List Char) : l.utf8Encode.size ≤ 4 * l.length := by
  induction l with
  | nil => exact Nat.le_refl 0
  | cons c l ih =>
    have hc : (String.utf8EncodeChar c).toByteArray.size = c.utf8Size := by simp
    have h4 := c.utf8Size_le_four
    rw [List.utf8Encode_cons, ByteArray.size_append, List.utf8Encode_singleton, List.length_cons]
    omega

theorem Utf8.length_encode_ofList (l : List Char) :
    (Utf8.encode (String.ofList l)).length ≤ 4 * l.length := by
  have hl : (Utf8.encode (String.ofList l)).length = l.utf8Encode.size :=
    congrArg ByteArray.size String.toByteArray_ofList
  exact hl ▸ Utf8.size_utf8Encode l

namespace PublicKey

theorem length_le (k : PublicKey) : k.bytes.length ≤ 65 := by
  rw [k.length_eq]
  cases k.bytes with
  | nil => exact Nat.zero_le _
  | cons header rest =>
    change Curve.encodedLength header ≤ 65
    rw [Curve.encodedLength]
    split
    · decide
    · split <;> decide

theorem load_store_toHex (k : PublicKey) :
    Codec.text.load (Codec.text.store k.toHex) = .ok k.toHex := by
  have hk := k.length_le
  have hd := Hex.length_digits k.bytes
  have hl : (Utf8.encode k.toHex).length ≤ 4 * (Hex.digits k.bytes).length :=
    Utf8.length_encode_ofList _
  have hlimit : Format.storage.limit = 1000000 := rfl
  have hword : IntWidth.w64.values = 0x10000000000000000 := rfl
  exact (Codec.restores_text (by omega) .storage).load_store (by omega)

end PublicKey

theorem Journal.persistedKey_of_putMasterKey {j j' : Journal} {k : PublicKey}
    (hp : j.putMasterKey k.toHex = (.ok (), j')) : j'.persistedKey = .ok (some k.toHex) := by
  rcases j.put_outcome masterKeyKey (Codec.text.store k.toHex) with ⟨e, i, hi, hc⟩ | ⟨i, hi, hc⟩
  · cases hi.symm.trans hp
  · obtain ⟨-, rfl⟩ := Prod.mk.inj (hi.symm.trans hp)
    have hg : i.store.get? masterKeyKey = some (Codec.text.store k.toHex) := by
      rw [Store.get?, hc, Std.ExtTreeMap.getElem?_insert_self]
    rw [persistedKey, masterKey, readAs_ofStore, hg]
    simp only [PublicKey.load_store_toHex]

namespace Node

variable {n m : Node} {w : Network} {c : Checkpoint} {h : Hash} {ids : List PeerId}

theorem Kept.persistedKey (hk : n.Kept m) : m.journal.persistedKey = n.journal.persistedKey :=
  congrArg Journal.persistedKey hk.journal

theorem Adoption.persistedKey {r : Except AnchorError Unit} (ha : n.Adoption h (r, m)) :
    m.journal.persistedKey = n.journal.persistedKey := by
  have hk := n.journal.putCheckpoint_persistedKey h
  cases ha with
  | refused => rfl
  | unsaved e c j hc hj =>
    rw [hj] at hk
    exact hk
  | saved c j hc hj =>
    rw [hj] at hk
    exact hk

theorem promote_journal (n : Node) (ids : List PeerId) : (n.promote ids).journal = n.journal := by
  rw [promote]
  dsimp only
  split <;> rfl

theorem Acceptance.persistedKey {r : Except AnchorError Bool × Node} (ha : n.Acceptance ids r) :
    r.2.journal.persistedKey = n.journal.persistedKey := by
  cases ha with
  | idle => rfl
  | dropped h r a hp hc hv => exact (dropped_kept hv).persistedKey
  | failed h e m hp hc hj hm => exact hm.persistedKey
  | accepted h m hp hc hj hm =>
    rw [promote_journal]
    exact hm.persistedKey

theorem Processing.persistedKey {sender : Option PeerId} {r : Except AnchorError Bool × Node}
    (hp : n.Processing c sender r) : r.2.journal.persistedKey = n.journal.persistedKey := by
  cases hp with
  | unsigned => rfl
  | awaited d => exact (n.await_kept d sender).persistedKey
  | invalid d e a hd hc hv => exact (invalid_kept hv).persistedKey
  | older => rfl
  | failed d e m hd hc hj hm => exact hm.persistedKey
  | accepted d m hd hc hj hm => exact hm.persistedKey

theorem Sending.persistedKey {r : Except AnchorError Bool × Node} (hs : n.Sending h ids r) :
    r.2.journal.persistedKey = n.journal.persistedKey := by
  cases hs with
  | unsigned => rfl
  | withheld c r m hp => exact hp.persistedKey
  | relayed k c m hk hs hp => exact hp.persistedKey

theorem Following.persistedKey {now : Int64} {r : Except AnchorError Unit × Node}
    (hf : n.Following ids now r) : r.2.journal.persistedKey = n.journal.persistedKey := by
  have ha := (n.acceptPending_outcome ids).persistedKey
  rcases hf.sends with he | ⟨h, sent, hs⟩
  · exact he ▸ ha
  · exact hs.persistedKey.trans ha

theorem Preparation.persistedKey {r : Except AnchorError Unit} (hp : n.Preparation (r, m)) :
    m.journal.persistedKey = n.journal.persistedKey := by
  cases hp <;> rfl

theorem Resetting.persistedKey {r : Except AnchorError Bool} (hs : n.Resetting (r, m)) :
    m.journal.persistedKey = n.journal.persistedKey := by
  cases hs with
  | unprepared e m hp => exact hp.persistedKey
  | groundless m hp => exact hp.persistedKey
  | unsaved m p e m' hp hf hw => exact hw.persistedKey.trans hp.persistedKey
  | saved m p m' hp hf hw => exact hw.persistedKey.trans hp.persistedKey

def Registered (w : Network) (n : Node) : Prop :=
  n.journal.persistedKey = .ok (some w.masterKey.toHex)

theorem KeyCheck.registers (hk : n.KeyCheck (.ok (), m)) : Registered n.anchor.network m := by
  have hp := n.journal.masterKey_persistedKey
  generalize hr : (Except.ok (), m) = r at hk
  cases hk with
  | unread => cases hr
  | kept j hj =>
    cases hr
    rw [hj] at hp
    exact hp.trans (Journal.persistedKey_of_masterKey hj)
  | unsaved => cases hr
  | saved k j j' hj hne hj' ht =>
    cases hr
    exact Journal.persistedKey_of_putMasterKey hj'
  | reset k j j' r m hj hne hj' ht hs =>
    obtain ⟨-, rfl⟩ := Prod.mk.inj hr
    exact hs.persistedKey.trans (Journal.persistedKey_of_putMasterKey hj')

theorem KeyCheck.registered {r : Except AnchorError Unit × Node} (hk : n.KeyCheck r)
    (hw : n.anchor.network = w) (hn : Registered w n) : Registered w r.2 := by
  subst hw
  have hp := n.journal.masterKey_persistedKey
  have hread {j : Journal} {k : Option String} (hj : n.journal.masterKey = (.ok k, j)) :
      k = some n.anchor.network.masterKey.toHex :=
    Except.ok.inj ((Journal.persistedKey_of_masterKey hj).symm.trans hn)
  cases hk with
  | unread e j hj =>
    rw [hj] at hp
    exact hp.trans hn
  | kept j hj =>
    rw [hj] at hp
    exact hp.trans hn
  | unsaved k j e j' hj hne => exact absurd (hread hj) hne
  | saved k j j' hj hne => exact absurd (hread hj) hne
  | reset k j j' r m hj hne => exact absurd (hread hj) hne

theorem registered_of_start {p : Policy} {ch : Chain} {j : Journal} {ps : Peers}
    (hs : start w p ch j ps = (.ok (), n)) : Registered w n := by
  have hn := start_outcome w p ch j ps
  rw [hs] at hn
  cases hn with
  | checked m r hl hk =>
    have hr := hk.registers
    rwa [hl.retains.network] at hr

theorem receive_journal (n : Node) (h parent : Hash) (time : Int64) (catchingUp : Bool) :
    (n.receive h parent time catchingUp).journal = n.journal := by
  rw [receive]
  split <;> rfl

theorem Registered.apply (hn : Registered w n) (hw : n.anchor.network = w) (e : Event) :
    Registered w (e.apply n) := by
  cases e with
  | process c sender => exact (n.process_outcome c sender).persistedKey.trans hn
  | acceptPending ids => exact (n.acceptPending_outcome ids).persistedKey.trans hn
  | send h ids => exact (n.send_outcome h ids).persistedKey.trans hn
  | blockProcessed ids now => exact (n.blockProcessed_outcome ids now).persistedKey.trans hn
  | validate h => exact (n.validate_kept h).persistedKey.trans hn
  | accept h parent catchingUp =>
    have hk := n.anchor.accept_keeps n.tree h parent catchingUp
    exact (kept_of_keeps hk).persistedKey.trans hn
  | setMasterKey secret =>
    exact (kept_of_keeps (n.anchor.setMasterKey_keeps secret)).persistedKey.trans hn
  | receive h parent time catchingUp =>
    rw [Registered, Event.apply, receive_journal]
    exact hn
  | askForPending peer => exact (n.askForPending_kept peer).persistedKey.trans hn
  | reset => exact n.reset_outcome.persistedKey.trans hn
  | write h => exact (n.write_outcome h).persistedKey.trans hn
  | checkMasterKey => exact n.checkMasterKey_outcome.registered hw hn
  | _ => exact hn

theorem Registered.run (hn : Registered w n) (hp : Possible w n) (es : List Event) :
    Registered w (n.run es) := by
  induction es generalizing n with
  | nil => exact hn
  | cons e es ih => exact ih (hn.apply hp.authentic.network e) (hp.apply e)

theorem start_of_persisted {p : Policy} {ch : Chain} {j : Journal} {ps : Peers}
    (hr : ∀ k, j.fails k .read = false) (hc : j.persisted = .ok (some h))
    (hk : j.persistedKey = .ok (some w.masterKey.toHex)) :
    start w p ch j ps = (.ok (), ⟨{ Anchor.new w p with current := h }, ch,
      { j with calls := j.calls + 2 }, ps⟩) := by
  have hload : loadCheckpoint ⟨.new w p, ch, j, ps⟩ = (.ok (),
      ⟨{ Anchor.new w p with current := h }, ch, { j with calls := j.calls + 1 }, ps⟩) := by
    rw [loadCheckpoint, Journal.checkpoint_eq, Journal.isFailing, hr, hc]
    rfl
  rw [start, hload]
  dsimp only
  rw [checkMasterKey, Journal.masterKey_eq, Journal.isFailing]
  have hk' : Journal.persistedKey { j with calls := j.calls + 1 } =
      .ok (some w.masterKey.toHex) := hk
  simp only [hr, hk', Anchor.new, Bool.false_eq_true, if_false, if_true]

/-- After any run a node can be started again on what its store has come to hold, on whatever chain:
it has the checkpoint that it had, and changes neither the chain nor the store. -/
theorem start_again {p p' : Policy} {ch ch' : Chain} {j j' : Journal} {ps ps' : Peers}
    (hs : start w p ch j ps = (.ok (), n)) (es : List Event)
    (hj : j'.store.committed = (n.run es).journal.store.committed)
    (hr : ∀ k, j'.fails k .read = false) :
    start w p' ch' j' ps' = (.ok (), ⟨{ Anchor.new w p' with current := (n.run es).anchor.current },
      ch', { j' with calls := j'.calls + 2 }, ps'⟩) := by
  have hd : (n.run es).Durable := (durable_of_start hs).run es
  have hk := (registered_of_start hs).run (.started hs) es
  exact start_of_persisted hr ((Journal.persisted_of_committed hj).trans hd)
    ((Journal.persistedKey_of_committed hj).trans hk)

/-- The second of two writes is lost, and the node starts again on a chain that it does not know. -/
theorem start_again_decaying :
    let es := [Event.write (Digest.ofNatLE 1), .write (Digest.ofNatLE 2)]
    let j : Journal := { (decaying.2.run es).journal with fails := fun _ _ ↦ false }
    let ch : Chain := ⟨.withGenesis (Digest.ofNatLE 7) 0, true⟩
    start default .strict ⟨.withGenesis (Digest.ofNatLE 0) 0, false⟩
        { Journal.empty with fails := fun k c ↦ c = .commit && 11 < k } ∅ = (.ok (), decaying.2) ∧
      j.store.committed = (decaying.2.run es).journal.store.committed ∧
      (∀ k, j.fails k .read = false) ∧
      start default .advisory ch j ∅ = (.ok (), ⟨{ Anchor.new default .advisory with
        current := (decaying.2.run es).anchor.current }, ch, { j with calls := j.calls + 2 }, ∅⟩) ∧
      (decaying.2.run es).anchor.current = Digest.ofNatLE 1 := by
  intro es j ch
  have hs : decaying = (.ok (), decaying.2) := Prod.ext (by decide +kernel) rfl
  exact ⟨hs, rfl, fun _ ↦ rfl, start_again hs es rfl fun _ ↦ rfl, by decide +kernel⟩

end Node

end ChainAnchor
