import ChainAnchor.Proofs.BlockTree.Selection
import ChainAnchor.Proofs.Key.Signing
import ChainAnchor.Proofs.Node.Freshness
import ChainAnchor.Proofs.Node.MainChain
import ChainAnchor.Proofs.Node.Validation

namespace ChainAnchor

open BlockTree

theorem PrivateKey.usable_of_publicKey {k : PrivateKey} {pub : PublicKey}
    (hk : k.publicKey = .ok pub) : k.Usable := by
  rw [publicKey] at hk
  cases hp : k.point with
  | error e =>
    rw [hp] at hk
    cases hk
  | ok p => exact (point_eq_ok_iff.mp hp).1

theorem Checkpoint.exists_sign {k : PrivateKey} {master : PublicKey} {h : Hash}
    (hk : k.publicKey = .ok master)
    (hs : Signature.Signable k.secret (Sha256.double (new h).payload)) :
    ∃ c, (new h).sign k = .ok c ∧ c.check master = .ok c := by
  have hu := PrivateKey.usable_of_publicKey hk
  rw [PrivateKey.publicKey_eq hu] at hk
  obtain ⟨sig, hsig⟩ := Signature.signable_iff.mp hs
  refine ⟨{ new h with signature := Der.encode sig }, ?_, ?_⟩
  · rw [sign, PrivateKey.sign, PrivateKey.signature_eq hu hsig]
  · rw [← Except.ok.inj hk]
    refine Genuine.check ⟨PrivateKey.verify_encode hu hsig, Notice.ofWire_toWire_of h⟩ ?_
    rw [PublicKey.isFullyValid, PublicKey.point?_ofPoint k.compressed
      (isOnCurve_secretPoint k.secret) (secretPoint_ne_infinity hu.isSecret), Option.isSome_some]

namespace BlockTree.Sound

variable {t : BlockTree} {c h : Hash}

theorem contains_of_isOnMain (hs : t.Sound) (hm : t.isOnMain h = true) : t.contains h = true :=
  hs.contains_ancestor (hs.isOnMain_iff.mp hm) hs.best

/-- Two blocks of the main chain do not conflict. -/
theorem judge_of_isOnMain (hs : t.Sound) (hc : t.isOnMain c = true) (hh : t.isOnMain h = true) :
    (t.Ancestor c h ∧ Anchor.judge t c h = .ok true) ∨
      (t.Ancestor h c ∧ Anchor.judge t c h = .ok false) := by
  by_cases hhc : t.Ancestor h c
  · exact Or.inr ⟨hhc, hs.judge_of_ancestor hhc (hs.contains_of_isOnMain hc)⟩
  · have hch := ((hs.isOnMain_iff.mp hc).total (hs.isOnMain_iff.mp hh)).resolve_right hhc
    have hstrict := StrictAncestor.of_ne hch fun he ↦ hhc (he ▸ .refl)
    exact Or.inl ⟨hch, hs.judge_of_strictAncestor hstrict (hs.contains_of_isOnMain hh)⟩

theorem isOnMain_selected (hs : t.Sound) : t.isOnMain t.selected = true :=
  hs.isOnMain_iff.mpr hs.linked.selected_ancestor

end BlockTree.Sound

namespace Node

variable {n m : Node} {h : Hash} {ids : List PeerId} {k : PrivateKey}

theorem Adoption.masterKey {r : Except AnchorError Unit} (ha : n.Adoption h (r, m)) :
    m.anchor.masterKey = n.anchor.masterKey := by
  cases ha <;> rfl

theorem Acceptance.masterKey {r : Except AnchorError Bool} (ha : n.Acceptance ids (r, m)) :
    m.anchor.masterKey = n.anchor.masterKey := by
  cases ha with
  | idle => rfl
  | dropped h r a hp hc hv =>
    rcases Anchor.eq_or_eq_of_validate hv with rfl | rfl <;> rfl
  | failed h e m hp hc hj hm => exact hm.masterKey
  | accepted h m hp hc hj hm =>
    rw [promote_anchor]
    exact hm.masterKey

theorem Processing.ancestor_of_isOnMain {c d : Checkpoint} {sender : Option PeerId}
    {r : Except AnchorError Bool} (hp : n.Processing c sender (r, m)) (hn : n.Anchored)
    (hs : n.tree.Sound) (hd : c.check n.anchor.network.masterKey = .ok d)
    (hmain : n.tree.isOnMain d.block = true) :
    m.tree = n.tree ∧ (∃ b, r = .ok b) ∧ n.tree.Ancestor d.block m.anchor.current := by
  have hj := hs.judge_of_isOnMain hn.main hmain
  cases hp with
  | unsigned e he => cases hd.symm.trans he
  | awaited d' hd' hc =>
    obtain rfl := Except.ok.inj (hd.symm.trans hd')
    cases hc.symm.trans (hs.contains_of_isOnMain hmain)
  | invalid d' e a hd' hc hv =>
    obtain rfl := Except.ok.inj (hd.symm.trans hd')
    have hj' := n.anchor.validate_fst n.tree d.block
    rw [hv] at hj'
    -- a judgement of two blocks of the main chain is no error
    rcases hj with ⟨-, hj⟩ | ⟨-, hj⟩ <;> cases hj'.trans hj
  | older d' hd' hc hj' =>
    obtain rfl := Except.ok.inj (hd.symm.trans hd')
    rcases hj with ⟨-, hj⟩ | ⟨ha, -⟩
    · cases hj.symm.trans hj'
    · exact ⟨rfl, ⟨false, rfl⟩, ha⟩
  | failed d' e m hd' hc hj' hm => exact (hm.false_of_error hn.reliable hs hc).elim
  | accepted d' m hd' hc hj' hm =>
    obtain rfl := Except.ok.inj (hd.symm.trans hd')
    cases hm with
    | saved c j hreach hput =>
      rcases Chain.cases_of_reach hs hreach with ⟨-, rfl⟩ | ⟨hoff, -, -⟩
      · exact ⟨rfl, ⟨true, rfl⟩, .refl⟩
      · cases hmain.symm.trans hoff

/-- Whether a node owns the master key of its network, and can sign a checkpoint for a block. -/
structure Issues (n : Node) (k : PrivateKey) (h : Hash) : Prop where
  masterKey : n.anchor.masterKey = some k
  publicKey : k.publicKey = .ok n.anchor.network.masterKey
  signable : Signature.Signable k.secret (Sha256.double (Checkpoint.new h).payload)

theorem Sending.ancestor_selected {r : Except AnchorError Bool}
    (hp : n.Sending n.tree.selected ids (r, m)) (hn : n.Anchored) (hs : n.tree.Sound)
    (hk : n.Issues k n.tree.selected) :
    m.tree = n.tree ∧ (∃ b, r = .ok b) ∧ n.tree.Ancestor n.tree.selected m.anchor.current := by
  obtain ⟨d, hd, hcheck⟩ := Checkpoint.exists_sign hk.publicKey hk.signable
  have hblock := Checkpoint.block_of_sign hd
  have hmain : n.tree.isOnMain d.block = true := by rw [hblock]; exact hs.isOnMain_selected
  have hsigned {k' : PrivateKey} {c : Checkpoint} (hk' : n.anchor.masterKey = some k')
      (hc : (Checkpoint.new n.tree.selected).sign k' = .ok c) : c = d := by
    obtain rfl := Option.some.inj (hk.masterKey.symm.trans hk')
    exact Except.ok.inj (hc.symm.trans hd)
  cases hp with
  | unsigned e hno => exact absurd hd (hno k d hk.masterKey)
  | withheld c r m hp hne hc =>
    obtain ⟨k', hk', hc⟩ := hc
    obtain rfl := hsigned hk' hc
    have hup := hp.ancestor_of_isOnMain hn hs hcheck hmain
    rwa [hblock] at hup
  | relayed k' c m hk' hc hp =>
    obtain rfl := hsigned hk' hc
    have hup := hp.ancestor_of_isOnMain hn hs hcheck hmain
    rwa [hblock] at hup

/-- What follows a block succeeds, and leaves the checkpoint above the selection unless blocks are
missing; what the node sends does not change the main chain. -/
theorem Following.ancestor_selected {now : Int64} {r : Except AnchorError Unit}
    (hf : n.Following ids now (r, m)) (hn : n.Anchored) (hs : n.tree.Sound)
    (hk : n.Issues k (n.acceptPending ids).2.tree.selected) :
    r = .ok () ∧ m.tree = (n.acceptPending ids).2.tree ∧
      (m.tree.isCatchingUp n.anchor.network now = false →
        m.tree.Ancestor m.tree.selected m.anchor.current) := by
  have ha := n.acceptPending_outcome ids
  have hsound := ha.forward.tree.sound hs
  have hnetwork := ha.forward.network
  have hanchored := ha.anchored hn hs
  have hissues : (n.acceptPending ids).2.Issues k (n.acceptPending ids).2.tree.selected :=
    ⟨ha.masterKey.trans hk.masterKey, by rw [hnetwork]; exact hk.publicKey, hk.signable⟩
  cases hf with
  | failed e m he =>
    rw [he] at ha
    cases ha with
    | failed h e m hp hc hj hm => exact (hm.false_of_error hn.reliable hs hc).elim
  | silent b m he hq =>
    rw [he] at hnetwork hissues
    refine ⟨rfl, by rw [he], fun hnot ↦ ?_⟩
    rcases hq with hnone | hmissing | hsame
    · cases hnone.symm.trans hissues.masterKey
    · rw [hnetwork, hnot] at hmissing
      cases hmissing
    · rw [hsame]
      exact .refl
  | unsent b m e m' he _ _ hsend =>
    rw [he] at hsound hanchored hissues
    obtain ⟨-, ⟨b, hb⟩, -⟩ := hsend.ancestor_selected hanchored hsound hissues
    cases hb
  | sent b m sent m' he _ _ hsend =>
    rw [he] at hsound hanchored hissues
    obtain ⟨ht, -, hup⟩ := hsend.ancestor_selected hanchored hsound hissues
    rw [he, ht]
    exact ⟨rfl, rfl, fun _ ↦ hup⟩

/-- A node whose checkpoint is on the main chain never finds the selected block in conflict with it.
If it owns the master key of its network, all goes well when a block has been processed: the
checkpoint that it sends leaves the main chain as it is, and unless blocks are missing the current
one is the selected block or descends from it afterwards.  Heights are words, so the blocks must be
fewer than the words. -/
theorem blockProcessed_selected (n : Node) (hr : n.tree.Reachable)
    (hsize : n.tree.size < UInt64.size) (hmain : n.tree.isOnMain n.anchor.current = true) :
    (∃ b, n.validate n.tree.selected = (.ok b, n)) ∧
    ∀ ids now k, n.Reliable → n.Issues k (n.acceptPending ids).2.tree.selected →
      (n.blockProcessed ids now).1 = .ok () ∧
      (n.blockProcessed ids now).2.tree = (n.acceptPending ids).2.tree ∧
      ((n.blockProcessed ids now).2.tree.isCatchingUp n.anchor.network now = false →
        (n.blockProcessed ids now).2.tree.Ancestor (n.blockProcessed ids now).2.tree.selected
          (n.blockProcessed ids now).2.anchor.current) := by
  have hs := hr.sound hsize
  refine ⟨?_, fun ids now k hn hk ↦
    (n.blockProcessed_outcome ids now).ancestor_selected ⟨hn, hr, hmain⟩ hs hk⟩
  have hj : ∃ b, Anchor.judge n.tree n.anchor.current n.tree.selected = .ok b := by
    rcases hs.judge_of_isOnMain hmain hs.isOnMain_selected with ⟨-, hj⟩ | ⟨-, hj⟩
    · exact ⟨true, hj⟩
    · exact ⟨false, hj⟩
  obtain ⟨b, hj⟩ := hj
  refine ⟨b, ?_⟩
  rw [validate, Anchor.validate_of_judge hj]

def issuing : Node :=
  { anchor := { Anchor.new .founding .strict with masterKey := some (PrivateKey.one false) }
    chain := ⟨tall, false⟩
    journal := .empty
    peers := ∅ }

theorem issues_issuing : issuing.Issues (PrivateKey.one false) (Digest.ofNatLE 2) where
  masterKey := rfl
  publicKey := by
    rw [PrivateKey.publicKey_eq (PrivateKey.usable_one false)]
    decide +kernel
  signable := Signature.signable_of_makes (by decide +kernel)

theorem blockProcessed_selected_issuing :
    let h (n : Nat) : Hash := Digest.ofNatLE n
    issuing.tree.Reachable ∧ issuing.tree.size < UInt64.size ∧
      issuing.tree.isOnMain issuing.anchor.current = true ∧ issuing.Reliable ∧
      issuing.Issues (PrivateKey.one false) (issuing.acceptPending []).2.tree.selected ∧
      issuing.tree.isCatchingUp issuing.anchor.network 6090 = false ∧
      issuing.anchor.current = h 0 ∧ issuing.tree.selected = h 2 ∧
      (∃ b, issuing.validate (h 2) = (.ok b, issuing)) ∧
      (issuing.blockProcessed [] 6090).1 = .ok () ∧
      (issuing.blockProcessed [] 6090).2.tree = issuing.tree ∧
      issuing.tree.Ancestor (h 2) (issuing.blockProcessed [] 6090).2.anchor.current := by
  intro h
  obtain ⟨-, -, hsel, -, -, hheight, htime, -, -, -, hsize, hmain⟩ := tall_eq
  have ht : issuing.tree = tall := by rw [tree, issuing]
  have htree : (issuing.acceptPending []).2.tree = issuing.tree := rfl
  rw [← ht] at hsel hheight htime hsize hmain
  have hcur : issuing.anchor.current = h 0 := by
    simp only [issuing, Anchor.new, Network.founding, Network.endorsing, h]
  have hmain : issuing.tree.isOnMain issuing.anchor.current = true := by
    rw [hcur]
    exact hmain
  have hr : issuing.tree.Reachable := ht ▸ reachable_tall
  have hn : issuing.Reliable := ⟨rfl, Journal.reliable_ofStore rfl⟩
  have hk : issuing.Issues (PrivateKey.one false) (issuing.acceptPending []).2.tree.selected := by
    rw [htree, hsel]
    exact issues_issuing
  have hready : issuing.tree.isCatchingUp issuing.anchor.network 6090 = false := by
    rw [isCatchingUp, hheight, htime]
    decide +kernel
  obtain ⟨hv, hb⟩ := blockProcessed_selected issuing hr hsize hmain
  obtain ⟨hok, hkeeps, hup⟩ := hb [] 6090 _ hn hk
  rw [hkeeps, htree, hsel] at hup
  rw [hsel] at hv
  exact ⟨hr, hsize, hmain, hn, hk, hready, hcur, hsel, hv, hok, hkeeps.trans htree, hup hready⟩

end Node

end ChainAnchor
