import ChainAnchor.Proofs.Node.Growth
import ChainAnchor.Proofs.Node.Reliable
import ChainAnchor.Proofs.Node.Rotation

namespace ChainAnchor

open BlockTree

namespace BlockTree

variable {t t' : BlockTree} {a h : Hash}

theorem Sound.isOnMain_of_extends (hs : t.Sound) (hs' : t'.Sound) (he : t.Extends t')
    (hb : t'.best = t.best) (hm : t.isOnMain h = true) : t'.isOnMain h = true := by
  rw [hs.isOnMain_iff] at hm
  rw [hs'.isOnMain_iff, hb]
  exact he.ancestor hm

/-- What a new tip descends from is on the main chain. -/
theorem Sound.isOnMain_setBest (hs : t.Sound) (ha : t.Ancestor a h) (hm : t.isOnMain a = true) :
    (t.setBest h).2.isOnMain a = true := by
  cases hh : t.contains h with
  | false =>
    rw [setBest_of_unknown hh]
    exact hm
  | true =>
    obtain ⟨t', ht, hr, hb, hs'⟩ := hs.exists_setBest hh
    rw [ht, hs'.isOnMain_iff, hb]
    exact hr.extends.ancestor ha

theorem Switched.sound (hw : t.Switched t') (hs : t.Sound) : t'.Sound := by
  rcases hw with rfl | ⟨h, rfl⟩
  · exact hs
  · exact hs.setBest h

theorem insert_best (t : BlockTree) (h p : Hash) (time : Int64) :
    (t.insert h p time).2.best = t.best := by
  rcases insert_cases t h p time with ⟨e, he⟩ | ⟨q, t', -, -, he, -, -, -, hb⟩
  · rw [he]
  · rw [he, hb]

theorem addOrphan_best (t : BlockTree) (h p : Hash) : (t.addOrphan h p).best = t.best := by
  rw [addOrphan]
  split <;> rfl

end BlockTree

theorem Chain.cases_of_reach {c c' : Chain} {h : Hash} (hs : c.tree.Sound)
    (hr : c.reach h = (.ok (), c')) :
    (c.tree.isOnMain h = true ∧ c' = c) ∨
      (c.tree.isOnMain h = false ∧ c'.tree.best = h ∧ c'.tree.Sound) := by
  rw [reach, setBest] at hr
  split at hr
  next hm =>
    cases hr
    exact Or.inl ⟨hm, rfl⟩
  next hm =>
    split at hr
    · cases hr
    cases hh : c.tree.contains h with
    | false =>
      rw [setBest_of_unknown hh] at hr
      cases hr
    | true =>
      obtain ⟨t', ht, -, hb, hs'⟩ := hs.exists_setBest hh
      rw [ht] at hr
      cases hr
      exact Or.inr ⟨Bool.eq_false_iff.mpr hm, hb, hs'⟩

theorem Chain.isOnMain_of_reach {c c' : Chain} {h : Hash} (hs : c.tree.Sound)
    (hr : c.reach h = (.ok (), c')) : c'.tree.isOnMain h = true := by
  rcases cases_of_reach hs hr with ⟨hm, rfl⟩ | ⟨-, hb, hs'⟩
  · exact hm
  · rw [hs'.isOnMain_iff, hb]
    exact .refl

namespace Node

variable {n m : Node} {h : Hash} {ids : List PeerId}

structure Anchored (n : Node) : Prop where
  reliable : n.Reliable
  reachable : n.tree.Reachable
  main : n.tree.isOnMain n.anchor.current = true

theorem Anchored.of_eq (hn : n.Anchored) (hcur : m.anchor.current = n.anchor.current)
    (hc : m.chain = n.chain) (hj : m.journal = n.journal) : m.Anchored := by
  refine ⟨⟨hc ▸ hn.reliable.refuses, hj ▸ hn.reliable.journal⟩, ?_, ?_⟩
  · rw [tree, hc]
    exact hn.reachable
  · rw [tree, hc, hcur]
    exact hn.main

theorem Kept.anchored (hk : n.Kept m) (hn : n.Anchored) : m.Anchored :=
  hn.of_eq hk.anchor.current hk.chain hk.journal

theorem Anchored.promote (hn : n.Anchored) (ids : List PeerId) : (n.promote ids).Anchored := by
  rw [Node.promote]
  dsimp only
  split <;> exact hn.of_eq rfl rfl rfl

theorem Adoption.anchored (ha : n.Adoption h (.ok (), m)) (hn : n.Anchored) (hs : n.tree.Sound) :
    m.Anchored := by
  have hr := ha.reliable hn.reliable
  have ht := n.chain.reach_switched h
  cases ha with
  | saved c j hc hp =>
    rw [hc] at ht
    exact ⟨hr, ht.reachable hn.reachable, Chain.isOnMain_of_reach hs hc⟩

theorem Acceptance.anchored {r : Except AnchorError Bool × Node} (ha : n.Acceptance ids r)
    (hn : n.Anchored) (hs : n.tree.Sound) : r.2.Anchored := by
  cases ha with
  | idle => exact hn
  | dropped h r a hp hc hv => exact (dropped_kept hv).anchored hn
  | failed h e m hp hc hj hm => exact (hm.false_of_error hn.reliable hs hc).elim
  | accepted h m hp hc hj hm => exact (hm.anchored hn hs).promote ids

theorem Processing.anchored {c : Checkpoint} {sender : Option PeerId}
    {r : Except AnchorError Bool × Node} (hp : n.Processing c sender r) (hn : n.Anchored)
    (hs : n.tree.Sound) : r.2.Anchored := by
  cases hp with
  | unsigned => exact hn
  | awaited d => exact (n.await_kept d sender).anchored hn
  | invalid d e a hd hc hv => exact (invalid_kept hv).anchored hn
  | older => exact hn
  | failed d e m hd hc hj hm => exact (hm.false_of_error hn.reliable hs hc).elim
  | accepted d m hd hc hj hm => exact (hm.anchored hn hs).of_eq rfl rfl rfl

theorem Sending.anchored {r : Except AnchorError Bool × Node} (hp : n.Sending h ids r)
    (hn : n.Anchored) (hs : n.tree.Sound) : r.2.Anchored := by
  cases hp with
  | unsigned => exact hn
  | withheld c r m hp => exact hp.anchored hn hs
  | relayed k c m hk hc hp => exact (hp.anchored hn hs).of_eq rfl rfl rfl

theorem Following.anchored {now : Int64} {r : Except AnchorError Unit × Node}
    (hf : n.Following ids now r) (hn : n.Anchored) (hs : n.tree.Sound) :
    (n.acceptPending ids).2.Anchored ∧ r.2.Anchored := by
  have ha := n.acceptPending_outcome ids
  have hk := ha.anchored hn hs
  refine ⟨hk, ?_⟩
  rcases hf.sends with he | ⟨h, sent, hsend⟩
  · exact he ▸ hk
  · exact hsend.anchored hk (ha.forward.tree.sound hs)

theorem Writing.reliable {r : Except AnchorError Unit} (hw : n.Writing h (r, m))
    (hn : n.Reliable) : r = .ok () ∧ m.Reliable := by
  obtain ⟨j, hj, hjr⟩ := hn.journal.exists_put Journal.checkpointKey ((Codec.digest 32).store h)
  cases hw with
  | unsaved e k hp => cases hj.symm.trans hp
  | saved k hp =>
    obtain ⟨-, rfl⟩ := Prod.mk.inj (hj.symm.trans hp)
    exact ⟨rfl, hn.refuses, hjr⟩

theorem Preparation.reliable {r : Except AnchorError Unit} (hp : n.Preparation (r, m))
    (hn : n.Reliable) : m.Reliable := by
  have hc (h : Hash) := n.chain.reach_refuses h
  cases hp with
  | empty => exact hn
  | refused p l e c hd hh hr =>
    have hc := hc p.2
    rw [hr] at hc
    exact ⟨hc.trans hn.refuses, hn.journal⟩
  | reached p l c hd hh hr =>
    have hc := hc p.2
    rw [hr] at hc
    exact ⟨hc.trans hn.refuses, hn.journal⟩
  | awaited => exact ⟨hn.refuses, hn.journal⟩

/-- The switch that a reset begins with may leave the checkpoint behind, but then the block that it
switches to becomes the checkpoint. -/
theorem Resetting.anchored {r : Except AnchorError Bool × Node} (hr : n.Resetting r)
    (hn : n.Anchored) (hs : n.tree.Sound) : r.2.Anchored := by
  have ht : r.2.tree.Reachable := hr.switched.reachable hn.reachable
  cases hr with
  | unprepared e m hp =>
    cases hp with
    | refused p l e c hd hc hr =>
      obtain ⟨c', hc'⟩ := Chain.exists_reach hn.reliable.refuses hs hc
      cases hr.symm.trans hc'
  | groundless m hp hf =>
    cases hp with
    | empty => exact hn
    | reached p l c hd hc hr =>
      -- the block that was reached is a target itself
      have hoff := List.find?_eq_none.mp hf p (hd ▸ List.mem_cons_self)
      exact absurd (Chain.isOnMain_of_reach hs hr) hoff
    | awaited => exact hn.of_eq rfl rfl rfl
  | unsaved k p e m hp hf hw => cases (hw.reliable (hp.reliable hn.reliable)).1
  | saved k p m hp hf hw =>
    obtain ⟨height, -, hm⟩ := (Resetting.saved k p m hp hf hw).grounded
    exact ⟨(hw.reliable (hp.reliable hn.reliable)).2, ht, hm⟩

theorem KeyCheck.anchored {r : Except AnchorError Unit × Node} (hk : n.KeyCheck r)
    (hn : n.Anchored) (hs : n.tree.Sound) : r.2.Anchored := by
  have hread {k : Except StoreError (Option String)} {j : Journal}
      (hj : n.journal.masterKey = (k, j)) : j.Reliable := by
    have hr := hn.reliable.journal.masterKey
    rwa [hj] at hr
  have hput {k : Except StoreError (Option String)} {j j' : Journal} {u : Except StoreError Unit}
      (hj : n.journal.masterKey = (k, j))
      (hj' : j.putMasterKey n.anchor.network.masterKey.toHex = (u, j')) : j'.Reliable := by
    have hr := (hread hj).putMasterKey n.anchor.network.masterKey.toHex
    rwa [hj'] at hr
  have hset {j : Journal} (hj : j.Reliable) : Anchored { n with journal := j } :=
    ⟨⟨hn.reliable.refuses, hj⟩, hn.reachable, hn.main⟩
  cases hk with
  | unread e j hj => exact hset (hread hj)
  | kept j hj => exact hset (hread hj)
  | unsaved k j e j' hj hne hj' => exact hset (hput hj hj')
  | saved k j j' hj hne hj' ht => exact hset (hput hj hj')
  | reset k j j' r m hj hne hj' ht hr => exact hr.anchored (hset (hput hj hj')) hs

/-- Whether an event leaves the main chain to a node: from outside it is switched only to blocks
that descend from the checkpoint, and no checkpoint is forced upon the node. -/
def Event.Respects (n : Node) : Event → Prop
  | grow (.setBest h) => n.tree.Ancestor n.anchor.current h
  | write _ | refuse _ | useChain _ => False
  | _ => True

def Respected (n : Node) : List Event → Prop
  | [] => True
  | e :: es => e.Respects n ∧ (e.apply n).Respected es

theorem Respected.respects {pre post : List Event} {e : Event}
    (hes : n.Respected (pre ++ e :: post)) : e.Respects (n.run pre) := by
  induction pre generalizing n with
  | nil => exact hes.1
  | cons e pre ih => exact ih hes.2

theorem Event.Respects.keepsChain {e : Event} (he : e.Respects n) : e.keepsChain := by
  cases e with
  | useChain c => exact he.elim
  | _ => rfl

theorem Anchored.insert (hn : n.Anchored) (hs : n.tree.Sound) {p : Hash} {time : Int64}
    (hs' : (n.tree.insert h p time).2.Sound) : (n.grow (.insert h p time)).Anchored where
  reliable := ⟨hn.reliable.refuses, hn.reliable.journal⟩
  reachable := hn.reachable.apply (.insert h p time)
  main := hs.isOnMain_of_extends hs' (insert_extends n.tree h p time) (insert_best ..) hn.main

/-- Heights are words, so the blocks after the event must be fewer than the words. -/
theorem Anchored.grow (hn : n.Anchored) (hs : n.tree.Sound) {f : BlockTree.Event}
    (hf : (Event.grow f).Respects n) (hsize : (f.apply n.tree).size < UInt64.size) :
    (n.grow f).Anchored := by
  have hr := hn.reachable.apply f
  have hs' := hr.sound hsize
  cases f with
  | insert h p time => exact hn.insert hs hs'
  | addOrphan h p =>
    exact ⟨⟨hn.reliable.refuses, hn.reliable.journal⟩, hr,
      hs.isOnMain_of_extends hs' (addOrphan_extends n.tree h p) (addOrphan_best ..) hn.main⟩
  | setBest h =>
    exact ⟨⟨hn.reliable.refuses, hn.reliable.journal⟩, hr, hs.isOnMain_setBest hf hn.main⟩

theorem Anchored.receive (hn : n.Anchored) (hs : n.tree.Sound) {p : Hash} {time : Int64}
    {catchingUp : Bool} (hsize : (n.receive h p time catchingUp).tree.size < UInt64.size) :
    (n.receive h p time catchingUp).Anchored := by
  have hk := n.anchor.accept_keeps n.tree h p catchingUp
  rw [Node.receive] at hsize ⊢
  rcases ha : n.anchor.accept n.tree h p catchingUp with ⟨e | u, a⟩
  · rw [ha] at hk
    exact (kept_of_keeps hk).anchored hn
  · rw [ha] at hk hsize
    have hn' : Anchored { n with anchor := a } := (kept_of_keeps hk).anchored hn
    exact hn'.insert hs ((hn.reachable.apply (.insert h p time)).sound hsize)

theorem Anchored.apply (hn : n.Anchored) {e : Event} (he : e.Respects n)
    (hsize : (e.apply n).tree.size < UInt64.size) :
    ∀ m ∈ e.between n ++ [e.apply n], m.Anchored := by
  have hle : n.tree.size ≤ (e.apply n).tree.size := (e.grows he.keepsChain n).size_le
  have hs := hn.reachable.sound (Nat.lt_of_le_of_lt hle hsize)
  rw [List.forall_mem_append, List.forall_mem_singleton]
  have hnil : ∀ m ∈ ([] : List Node), m.Anchored := List.forall_mem_nil _
  cases e with
  | blockProcessed ids now =>
    obtain ⟨ha, hb⟩ := (n.blockProcessed_outcome ids now).anchored hn hs
    exact ⟨List.forall_mem_singleton.mpr ha, hb⟩
  | process c sender => exact ⟨hnil, (n.process_outcome c sender).anchored hn hs⟩
  | acceptPending ids => exact ⟨hnil, (n.acceptPending_outcome ids).anchored hn hs⟩
  | send h ids => exact ⟨hnil, (n.send_outcome h ids).anchored hn hs⟩
  | validate h => exact ⟨hnil, (n.validate_kept h).anchored hn⟩
  | accept h p catchingUp =>
    exact ⟨hnil, (kept_of_keeps (n.anchor.accept_keeps n.tree h p catchingUp)).anchored hn⟩
  | receive h p time catchingUp => exact ⟨hnil, hn.receive hs hsize⟩
  | askForPending peer => exact ⟨hnil, (n.askForPending_kept peer).anchored hn⟩
  | setMasterKey secret =>
    exact ⟨hnil, (kept_of_keeps (n.anchor.setMasterKey_keeps secret)).anchored hn⟩
  | reset => exact ⟨hnil, n.reset_outcome.anchored hn hs⟩
  | checkMasterKey => exact ⟨hnil, n.checkMasterKey_outcome.anchored hn hs⟩
  | grow f => exact ⟨hnil, hn.grow hs he hsize⟩
  | write h => exact he.elim
  | refuse b => exact he.elim
  | useChain c => exact he.elim

/-- The checkpoint of a node whose store and chain do not fail stays on the main chain, as long as
the main chain is switched from outside only to blocks that descend from the checkpoint.  Heights
are words, so the blocks must be fewer than the words. -/
theorem current_isOnMain (hn : n.Reliable) (ht : n.tree.Reachable)
    (hc : n.tree.isOnMain n.anchor.current = true) (es : List Event) (hes : n.Respected es)
    (hsize : (n.run es).tree.size < UInt64.size) :
    ∀ m ∈ n.history es, m.tree.isOnMain m.anchor.current = true := by
  have hkeep : ∀ e ∈ es, e.keepsChain := by
    intro e he
    obtain ⟨pre, post, rfl⟩ := List.append_of_mem he
    exact hes.respects.keepsChain
  have ha : ∀ m ∈ n.history es, m.Anchored := by
    refine forall_mem_history ⟨hn, ht, hc⟩ fun pre e post hsplit hpre ↦ ?_
    subst hsplit
    refine hpre.apply hes.respects (Nat.lt_of_le_of_lt ?_ hsize)
    -- what is still to come only adds blocks
    have hpost : ∀ e' ∈ post, e'.keepsChain := fun e' he ↦
      hkeep e' (List.mem_append_right _ (List.mem_cons_of_mem _ he))
    rw [run_append, run_cons]
    exact (grows_of_mem_history hpost (run_mem_history _ post)).1.size_le
  exact fun m hm ↦ (ha m hm).main

def forking : Node :=
  let h (n : Nat) : Hash := Digest.ofNatLE n
  { anchor := { Anchor.new { (default : Network) with
        hardened := Network.table [(1, h 3)] } .strict with
      current := h 0, pending := some (h 2) }
    chain := ⟨(BlockTree.withGenesis (h 0) 0).run [.insert (h 1) (h 0) 30, .insert (h 2) (h 1) 60,
      .insert (h 3) (h 0) 40, .insert (h 4) (h 2) 90], false⟩
    journal := .empty
    peers := ∅ }

def detour : List Event :=
  [.grow (.setBest (Digest.ofNatLE 4)), .acceptPending [], .reset]

theorem current_isOnMain_detour :
    forking.Reliable ∧ forking.tree.Reachable ∧
      forking.tree.isOnMain forking.anchor.current = true ∧ forking.Respected detour ∧
      (forking.run detour).tree.size < UInt64.size ∧
      (∀ m ∈ forking.history detour, m.tree.isOnMain m.anchor.current = true) ∧
      (forking.run (detour.take 2)).anchor.current = Digest.ofNatLE 2 ∧
      (forking.run detour).anchor.current = Digest.ofNatLE 3 ∧
      (forking.run detour).tree.isOnMain (Digest.ofNatLE 2) = false := by
  have hn : forking.Reliable := ⟨rfl, Journal.reliable_ofStore rfl⟩
  have ht : forking.tree.Reachable := ⟨_, _, _, rfl⟩
  have hc : forking.tree.isOnMain forking.anchor.current = true := by decide +kernel
  have hp₁ : forking.tree.IsParent forking.anchor.current (Digest.ofNatLE 1) := by decide +kernel
  have hp₂ : forking.tree.IsParent (Digest.ofNatLE 1) (Digest.ofNatLE 2) := by decide +kernel
  have hp₄ : forking.tree.IsParent (Digest.ofNatLE 2) (Digest.ofNatLE 4) := by decide +kernel
  have hes : forking.Respected detour :=
    ⟨.head hp₁ (.head hp₂ (.single hp₄)), trivial, trivial, trivial⟩
  have hsize : (forking.run detour).tree.size < UInt64.size := by decide +kernel
  exact ⟨hn, ht, hc, hes, hsize, current_isOnMain hn ht hc detour hes hsize, by decide +kernel,
    by decide +kernel, by decide +kernel⟩

end Node

end ChainAnchor
