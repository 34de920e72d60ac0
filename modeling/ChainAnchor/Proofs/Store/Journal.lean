import ChainAnchor.Proofs.Codec.Restores
import ChainAnchor.Store.Journal

namespace ChainAnchor

namespace Journal

variable {j : Journal} {key val : Bytes} {h : Hash} {l : List (Bytes × Bytes)}

theorem begin_outcome (j : Journal) :
    (∃ e, j.begin = (.error e, { j with calls := j.calls + 1 })) ∨
    j.begin = (.ok (),
      { j with store := { j.store with staged := some [] }, calls := j.calls + 1 }) := by
  rw [begin, Store.begin]
  split
  · exact Or.inl ⟨_, rfl⟩
  · split
    · exact Or.inl ⟨_, rfl⟩
    · exact Or.inr rfl

theorem write_outcome (hs : j.store.staged = some l) (key val : Bytes) :
    (∃ e, j.write key val = (.error e, { j with calls := j.calls + 1 })) ∨
    j.write key val = (.ok (), { j with
      store := { j.store with staged := some (l ++ [(key, val)]) }, calls := j.calls + 1 }) := by
  rw [write, Store.write, hs]
  split
  · exact Or.inl ⟨_, rfl⟩
  · exact Or.inr rfl

theorem abort_committed (j : Journal) : j.abort.2.store.committed = j.store.committed := by
  rw [abort, Store.abort]
  split
  · rfl
  · split <;> rfl

theorem commit_outcome (hs : j.store.staged = some l) :
    (∃ e j', j.commit = (.error e, j') ∧ j'.store.committed = j.store.committed) ∨
    ∃ j', j.commit = (.ok (), j') ∧
      j'.store.committed = l.foldl (fun m w ↦ m.insert w.1 w.2) j.store.committed := by
  rw [commit, Store.abort, Store.commit, hs]
  split
  · exact Or.inl ⟨_, _, rfl, rfl⟩
  · exact Or.inr ⟨_, rfl, rfl⟩

/-- A value is committed exactly if putting it succeeds, and nothing else is. -/
theorem put_outcome (j : Journal) (key val : Bytes) :
    (∃ e j', j.put key val = (.error e, j') ∧ j'.store.committed = j.store.committed) ∨
    ∃ j', j.put key val = (.ok (), j') ∧
      j'.store.committed = j.store.committed.insert key val := by
  rw [put]
  rcases j.begin_outcome with ⟨e, hb⟩ | hb
  · rw [hb]
    exact Or.inl ⟨e, _, rfl, rfl⟩
  rw [hb]
  dsimp only
  generalize hj : { j with store := { j.store with staged := some [] }, calls := j.calls + 1 } = k
  have hs : k.store.staged = some [] := by rw [← hj]
  have hc : k.store.committed = j.store.committed := by rw [← hj]
  rcases write_outcome hs key val with ⟨e, hw⟩ | hw
  · rw [hw]
    exact Or.inl ⟨e, _, rfl, (abort_committed _).trans hc⟩
  rw [hw]
  dsimp only
  rcases commit_outcome (j := { k with
    store := { k.store with staged := some ([] ++ [(key, val)]) }, calls := k.calls + 1 }) rfl
    with ⟨e, j', hj', hc'⟩ | ⟨j', hj', hc'⟩
  · exact Or.inl ⟨e, j', hj', hc'.trans hc⟩
  · exact Or.inr ⟨j', hj', hc'.trans (congrArg (·.insert key val) hc)⟩

theorem readAs_ofStore {α : Type} (c : Codec α) (s : Store) (key : Bytes) :
    ((ofStore s).readAs c key).1 =
      match s.get? key with
      | none => .ok none
      | some b => match c.load b with
        | .error e => .error (.malformed e)
        | .ok a => .ok (some a) := by
  simp only [readAs, read, isFailing, ofStore, Bool.false_eq_true, if_false]
  cases s.get? key with
  | none => rfl
  | some b =>
    dsimp only
    cases c.load b <;> rfl

theorem readAs_of_get? {α : Type} (c : Codec α) {j' : Journal}
    (hg : j'.store.get? key = j.store.get? key) :
    ((ofStore j'.store).readAs c key).1 = ((ofStore j.store).readAs c key).1 := by
  rw [readAs_ofStore, readAs_ofStore, hg]

/-- What the store holds as the checkpoint, whether or not the medium lets it be read. -/
def persisted (j : Journal) : Except StoreError (Option Hash) := (ofStore j.store).checkpoint.1

theorem persisted_of_get? {j' : Journal}
    (hg : j'.store.get? checkpointKey = j.store.get? checkpointKey) :
    j'.persisted = j.persisted :=
  readAs_of_get? _ hg

theorem persisted_of_committed {j' : Journal} (hc : j'.store.committed = j.store.committed) :
    j'.persisted = j.persisted :=
  persisted_of_get? (congrArg (·[checkpointKey]?) hc)

theorem readAs_eq {α : Type} (c : Codec α) (j : Journal) (key : Bytes) :
    j.readAs c key = (if j.isFailing .read then .error (.failed .read)
      else ((ofStore j.store).readAs c key).1, { j with calls := j.calls + 1 }) := by
  have hr : (ofStore j.store).isFailing .read = false := rfl
  have hs : (ofStore j.store).store = j.store := rfl
  simp only [readAs, read, hr, hs, Bool.false_eq_true, if_false]
  cases j.isFailing .read with
  | true => rfl
  | false =>
    cases j.store.get? key with
    | none => rfl
    | some b => cases hb : c.load b <;> simp [hb]

theorem checkpoint_eq (j : Journal) :
    j.checkpoint = (if j.isFailing .read then .error (.failed .read) else j.persisted,
      { j with calls := j.calls + 1 }) :=
  readAs_eq _ j _

theorem persisted_of_checkpoint {j' : Journal} {o : Option Hash}
    (hc : j.checkpoint = (.ok o, j')) : j'.persisted = .ok o := by
  rw [checkpoint_eq] at hc
  split at hc
  · cases hc
  · obtain ⟨ho, rfl⟩ := Prod.mk.inj hc
    exact ho

theorem checkpoint_persisted (j : Journal) : j.checkpoint.2.persisted = j.persisted := by
  rw [checkpoint_eq]
  rfl

theorem masterKey_persisted (j : Journal) : j.masterKey.2.persisted = j.persisted := by
  rw [masterKey, readAs_eq]
  rfl

theorem persisted_of_putCheckpoint_error {j' : Journal} {e : StoreError}
    (hp : j.putCheckpoint h = (.error e, j')) : j'.persisted = j.persisted := by
  rcases j.put_outcome checkpointKey ((Codec.digest 32).store h) with
    ⟨e', k, hk, hc⟩ | ⟨k, hk, hc⟩
  · obtain ⟨-, rfl⟩ := Prod.mk.inj (hk.symm.trans hp)
    exact persisted_of_committed hc
  · cases hk.symm.trans hp

theorem persisted_of_putCheckpoint_ok {j' : Journal} (hp : j.putCheckpoint h = (.ok (), j')) :
    j'.persisted = .ok (some h) := by
  rcases j.put_outcome checkpointKey ((Codec.digest 32).store h) with
    ⟨e', k, hk, hc⟩ | ⟨k, hk, hc⟩
  · cases hk.symm.trans hp
  · obtain ⟨-, rfl⟩ := Prod.mk.inj (hk.symm.trans hp)
    have hg : k.store.get? checkpointKey = some ((Codec.digest 32).store h) := by
      rw [Store.get?, hc, Std.ExtTreeMap.getElem?_insert_self]
    rw [persisted, checkpoint, readAs_ofStore, hg]
    simp only [Codec.load_store_digest]

theorem get?_put_of_ne {key' : Bytes} (j : Journal) (val : Bytes)
    (hne : compare key key' ≠ .eq) : (j.put key val).2.store.get? key' = j.store.get? key' := by
  rcases j.put_outcome key val with ⟨e, j', hp, hc⟩ | ⟨j', hp, hc⟩
  · rw [hp, Store.get?, hc, Store.get?]
  · rw [hp, Store.get?, hc, Std.ExtTreeMap.getElem?_insert, if_neg hne, Store.get?]

theorem putMasterKey_persisted (j : Journal) (s : String) :
    (j.putMasterKey s).2.persisted = j.persisted :=
  persisted_of_get? (j.get?_put_of_ne _ (by decide +kernel))

def persistedKey (j : Journal) : Except StoreError (Option String) := (ofStore j.store).masterKey.1

theorem masterKey_eq (j : Journal) :
    j.masterKey = (if j.isFailing .read then .error (.failed .read) else j.persistedKey,
      { j with calls := j.calls + 1 }) :=
  readAs_eq _ j _

theorem persistedKey_of_masterKey {j' : Journal} {o : Option String}
    (hk : j.masterKey = (.ok o, j')) : j.persistedKey = .ok o := by
  rw [masterKey_eq] at hk
  split at hk
  · cases hk
  · exact (Prod.mk.inj hk).1

theorem persistedKey_of_committed {j' : Journal} (hc : j'.store.committed = j.store.committed) :
    j'.persistedKey = j.persistedKey :=
  readAs_of_get? _ (congrArg (·[masterKeyKey]?) hc)

theorem masterKey_persistedKey (j : Journal) : j.masterKey.2.persistedKey = j.persistedKey := by
  rw [masterKey_eq]
  rfl

theorem checkpoint_persistedKey (j : Journal) : j.checkpoint.2.persistedKey = j.persistedKey := by
  rw [checkpoint, readAs_eq]
  rfl

theorem putCheckpoint_persistedKey (j : Journal) (h : Hash) :
    (j.putCheckpoint h).2.persistedKey = j.persistedKey :=
  readAs_of_get? _ (j.get?_put_of_ne _ (by decide +kernel))

structure Reliable (j : Journal) : Prop where
  fails (k : Nat) (c : Call) : j.fails k c = false
  idle : j.store.staged = none

theorem Reliable.exists_put (hj : j.Reliable) (key val : Bytes) :
    ∃ j', j.put key val = (.ok (), j') ∧ j'.Reliable := by
  have hf (k : Nat) (c : Call) : j.fails k c = false := hj.fails k c
  simp only [put, begin, write, commit, isFailing, hf, Bool.false_eq_true, if_false, Store.begin,
    Store.write, Store.commit, hj.idle, settle]
  exact ⟨_, rfl, hf, rfl⟩

theorem Reliable.masterKey (hj : j.Reliable) : j.masterKey.2.Reliable := by
  rw [masterKey_eq]
  exact ⟨hj.fails, hj.idle⟩

theorem Reliable.putMasterKey (hj : j.Reliable) (s : String) : (j.putMasterKey s).2.Reliable := by
  obtain ⟨j', hp, hr⟩ := hj.exists_put masterKeyKey (Codec.text.store s)
  rw [Journal.putMasterKey, hp]
  exact hr

theorem reliable_ofStore {s : Store} (hs : s.staged = none) : (ofStore s).Reliable :=
  ⟨fun _ _ ↦ rfl, hs⟩

end Journal

end ChainAnchor
