import ChainAnchor.Proofs.Node.Authenticity
import ChainAnchor.Proofs.Node.Durability

namespace ChainAnchor

def Journal.inherited (j : Journal) (w : Network) : Except StoreError Hash :=
  j.persisted.map fun o ↦ o.getD w.genesis

namespace Node

variable {n m : Node} {w : Network} {p : Policy} {c : Chain} {j j' : Journal} {ps : Peers}

theorem inherited_of_durable (hn : n.Durable) : n.journal.inherited w = .ok n.anchor.current := by
  rw [Journal.inherited, hn]
  rfl

theorem Unmoved.inherited (hu : n.Unmoved m) : m.journal.inherited w = n.journal.inherited w := by
  rw [Journal.inherited, Journal.inherited, hu.persisted]

theorem Loading.inherited {r : Except AnchorError Unit} (hl : n.Loading (r, m)) :
    m.journal.inherited n.anchor.network = n.journal.inherited n.anchor.network := by
  have hp := n.journal.checkpoint_persisted
  cases hl with
  | unread e j hj =>
    rw [hj] at hp
    rw [Journal.inherited, Journal.inherited, hp]
  | read h j hj =>
    rw [hj] at hp
    rw [Journal.inherited, Journal.inherited, hp]
  | written j r hj hw =>
    have hn := Journal.persisted_of_checkpoint hj
    rw [hj] at hp
    rw [Journal.inherited, Journal.inherited, ← hp, hn]
    cases hw with
    | unsaved e j' hj' =>
      rw [Journal.persisted_of_putCheckpoint_error hj', hn]
    | saved j' hj' =>
      rw [Journal.persisted_of_putCheckpoint_ok hj']
      rfl

theorem Writing.persistedKey {h : Hash} {r : Except AnchorError Unit} (hw : n.Writing h (r, m)) :
    m.journal.persistedKey = n.journal.persistedKey := by
  have hk := n.journal.putCheckpoint_persistedKey h
  cases hw with
  | unsaved e j hj =>
    rw [hj] at hk
    exact hk
  | saved j hj =>
    rw [hj] at hk
    exact hk

theorem Loading.persistedKey {r : Except AnchorError Unit} (hl : n.Loading (r, m)) :
    m.journal.persistedKey = n.journal.persistedKey := by
  have hp := n.journal.checkpoint_persistedKey
  cases hl with
  | unread e j hj =>
    rw [hj] at hp
    exact hp
  | read h j hj =>
    rw [hj] at hp
    exact hp
  | written j r hj hw =>
    rw [hj] at hp
    exact hw.persistedKey.trans hp

def Grounded (w : Network) (n : Node) : Prop :=
  ∃ height : UInt64, w.hardened[height]? = some n.anchor.current ∧
    n.tree.isOnMain n.anchor.current = true

theorem Resetting.grounded (hs : n.Resetting (.ok true, m)) : Grounded m.anchor.network m := by
  cases hs with
  | saved k q m hp hf hw =>
    have hon : k.tree.isOnMain q.2 = true := by simpa using List.find?_some hf
    have hm := List.mem_of_find?_eq_some hf
    rw [Network.descending, List.mem_reverse, Std.ExtTreeMap.mem_toList_iff_getElem?_eq_some] at hm
    cases hw with
    | saved j hj => exact ⟨q.1, hm, hon⟩

theorem KeyCheck.grounded (hk : n.KeyCheck (.ok (), m)) (ht : n.anchor.network.isTest = false)
    (hne : n.journal.persistedKey ≠ .ok (some n.anchor.network.masterKey.toHex)) :
    Grounded m.anchor.network m := by
  generalize hr : (Except.ok (), m) = r at hk
  cases hk with
  | unread => cases hr
  | kept j hj => exact absurd (Journal.persistedKey_of_masterKey hj) hne
  | unsaved => cases hr
  | saved k j j' hj hk hj' ht' => cases ht.symm.trans ht'
  | reset k j j' r m hj hk hj' ht hs =>
    -- a reset that finds no hardened checkpoint is turned into an error
    obtain ⟨hr, rfl⟩ := Prod.mk.inj hr
    rcases r with e | - | - <;> cases hr
    exact hs.grounded

theorem KeyCheck.current_eq (hk : n.KeyCheck (.ok (), m))
    (he : n.journal.persistedKey = .ok (some n.anchor.network.masterKey.toHex)) :
    m.anchor.current = n.anchor.current := by
  generalize hr : (Except.ok (), m) = r at hk
  cases hk with
  | unread => cases hr
  | kept => cases hr; rfl
  | unsaved => cases hr
  | saved => cases hr; rfl
  | reset k j j' r m hj hk hj' ht hs =>
    have hp := Journal.persistedKey_of_masterKey hj
    exact absurd (Except.ok.inj (hp.symm.trans he)) hk

/-- What is left in the store after attempts to start that failed, each on a chain of its own. -/
inductive Attempted (w : Network) : Journal → Journal → Prop
  | refl (j : Journal) : Attempted w j j
  | failed {j j' : Journal} {n : Node} (p : Policy) (c : Chain) (ps : Peers) (e : AnchorError) :
      Attempted w j j' → start w p c j' ps = (.error e, n) → Attempted w j n.journal

theorem inherited_of_error {e : AnchorError} (hs : start w p c j ps = (.error e, n)) :
    n.journal.inherited w = j.inherited w := by
  have hn := start_outcome w p c j ps
  rw [hs] at hn
  cases hn with
  | unloaded e m hl => exact hl.inherited
  | checked m r hl hk => exact hk.unmoved.inherited.trans hl.inherited

theorem Attempted.inherited (ha : Attempted w j j') : j'.inherited w = j.inherited w := by
  induction ha with
  | refl => rfl
  | failed p c ps e _ hs ih => exact (inherited_of_error hs).trans ih

/-- A start that finds another master key in the store ends at a hardened checkpoint on the main
chain, and one that finds the same ends at the checkpoint that was stored before all attempts. -/
theorem rotated (ht : w.isTest = false) (ha : Attempted w j j')
    (hs : start w p c j' ps = (.ok (), n)) :
    (j'.persistedKey ≠ .ok (some w.masterKey.toHex) → Grounded w n) ∧
      (j'.persistedKey = .ok (some w.masterKey.toHex) →
        j.inherited w = .ok n.anchor.current) := by
  have hnet := (authentic_of_start hs).network
  have hn := start_outcome w p c j' ps
  rw [hs] at hn
  cases hn with
  | checked m r hl hk =>
    have hmnet : m.anchor.network = w := hl.retains.network
    have hkey : m.journal.persistedKey = j'.persistedKey := hl.persistedKey
    have hold : m.journal.inherited w = j'.inherited w := hl.inherited
    rw [← hmnet] at ht
    refine ⟨fun hne ↦ ?_, fun he ↦ ?_⟩
    · rw [← hnet]
      rw [← hkey, ← hmnet] at hne
      exact hk.grounded ht hne
    · rw [← hkey] at he
      rw [← ha.inherited, ← hold, inherited_of_durable hl.durable]
      rw [hk.current_eq (hmnet.symm ▸ he)]

def relic : Journal :=
  ((Journal.empty.putCheckpoint (Digest.ofNatLE 2)).2.putMasterKey "00").2

def worn : Journal := { relic with fails := fun k _ ↦ k = 8 }

def starting (w : Network) (t : BlockTree) (j : Journal) : Except AnchorError Unit × Node :=
  start w .strict ⟨t, false⟩ j ∅

theorem starting_eq {t : BlockTree} {r : Except AnchorError Unit} (hr : (starting w t j).1 = r) :
    starting w t j = (r, (starting w t j).2) := by
  rw [← hr]

theorem rotated_worn :
    let first := (starting .main (.ofNetwork .main) worn).2
    let last := (starting .main (.ofNetwork .main) first.journal).2
    Network.main.isTest = false ∧ Attempted .main worn first.journal ∧
      starting .main (.ofNetwork .main) first.journal = (.ok (), last) ∧
      ((first.journal.persistedKey ≠ .ok (some Network.main.masterKey.toHex) →
          Grounded .main last) ∧
        (first.journal.persistedKey = .ok (some Network.main.masterKey.toHex) →
          worn.inherited .main = .ok last.anchor.current)) ∧
      first.journal.persistedKey ≠ .ok (some Network.main.masterKey.toHex) := by
  intro first last
  have ht : Network.main.isTest = false := by decide +kernel
  have hf : starting .main (.ofNetwork .main) worn = (.error (.store (.failed .begin)), first) :=
    starting_eq (by decide +kernel)
  have hl : starting .main (.ofNetwork .main) first.journal = (.ok (), last) :=
    starting_eq (by decide +kernel)
  have ha : Attempted .main worn first.journal :=
    .failed .strict ⟨.ofNetwork .main, false⟩ ∅ _ (.refl worn) hf
  exact ⟨ht, ha, hl, rotated ht ha hl, by decide +kernel⟩

def unprepared : Network :=
  { Network.main with hardened := Network.table [(1, Digest.ofNatLE 1)] }

def completed : BlockTree :=
  (BlockTree.ofNetwork unprepared).run [.insert (Digest.ofNatLE 1) unprepared.genesis 30,
    .insert (Digest.ofNatLE 2) (Digest.ofNatLE 1) 60, .setBest (Digest.ofNatLE 2)]

/-- A start that fails for want of a hardened checkpoint on the main chain has stored the new key,
so the next one keeps the checkpoint of the old key although the hardened one is there by then. -/
theorem not_rotated :
    let first := (starting unprepared (.ofNetwork unprepared) relic).2
    let last := (starting unprepared completed first.journal).2
    unprepared.isTest = false ∧ relic.persistedKey = .ok (some "00") ∧
      relic.persistedKey ≠ .ok (some unprepared.masterKey.toHex) ∧
      starting unprepared (.ofNetwork unprepared) relic = (.error .resetFailed, first) ∧
      starting unprepared completed first.journal = (.ok (), last) ∧
      completed.isOnMain (Digest.ofNatLE 1) = true ∧
      relic.persisted = .ok (some last.anchor.current) ∧ ¬ Grounded unprepared last := by
  intro first last
  have hf : starting unprepared (.ofNetwork unprepared) relic = (.error .resetFailed, first) :=
    starting_eq (by decide +kernel)
  have hl : starting unprepared completed first.journal = (.ok (), last) :=
    starting_eq (by decide +kernel)
  have hc : last.anchor.current = Digest.ofNatLE 2 := by decide +kernel
  refine ⟨by decide +kernel, by decide +kernel, by decide +kernel, hf, hl, by decide +kernel, ?_,
    ?_⟩
  · rw [hc]
    decide +kernel
  · rintro ⟨height, hh, -⟩
    have hne : Digest.ofNatLE 1 ≠ (Digest.ofNatLE 2 : Hash) := by decide +kernel
    rw [hc] at hh
    simp only [unprepared, Network.table, List.foldl_cons, List.foldl_nil,
      Std.ExtTreeMap.getElem?_insert, Std.ExtTreeMap.getElem?_empty] at hh
    split at hh
    · exact hne (Option.some.inj hh)
    · cases hh

end Node

end ChainAnchor
