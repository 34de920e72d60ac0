import ChainAnchor.Proofs.Network
import ChainAnchor.Proofs.Node.MainChain

namespace ChainAnchor

open BlockTree

theorem Chain.best_of_reach {c c' : Chain} {h : Hash} (hs : c.tree.Sound)
    (hr : c.reach h = (.ok (), c')) :
    c'.tree.best = if c.tree.isOnMain h then c.tree.best else h := by
  rcases cases_of_reach hs hr with ⟨hm, rfl⟩ | ⟨hm, hb, -⟩
  · rw [if_pos hm]
  · rw [hm, hb]
    rfl

namespace Node

variable {n k : Node} {T : Hash}

def Target (n : Node) (T : Hash) : Prop := n.anchor.network.Highest (fun _ ↦ True) T

theorem target_of_descending {p : UInt64 × Hash} {l : List (UInt64 × Hash)}
    (hd : n.anchor.network.descending = p :: l) : n.Target p.2 := by
  have hf : n.anchor.network.descending.find? (fun _ ↦ true) = some p := by
    rw [hd]
    rfl
  obtain ⟨height, hp, -, hmax⟩ := Network.highest_of_find? (p := fun _ ↦ true) hf
  exact ⟨height, hp, trivial, fun i x hx _ ↦ hmax i x hx rfl⟩

theorem Target.exists_descending (hT : n.Target T) :
    ∃ height l, n.anchor.network.descending = (height, T) :: l := by
  cases hd : n.anchor.network.descending with
  | nil =>
    obtain ⟨height, hT, -⟩ := hT
    have hm := Network.mem_descending.mpr hT
    rw [hd] at hm
    cases hm
  | cons p l => exact ⟨p.1, l, by rw [← (target_of_descending hd).unique hT]⟩

theorem reachHardened_of_known (hn : n.Reliable) (hs : n.tree.Sound) (hT : n.Target T)
    (hc : n.tree.contains T = true) :
    ∃ c, n.chain.reach T = (.ok (), c) ∧ n.reachHardened = (.ok (), { n with chain := c }) := by
  obtain ⟨height, l, hd⟩ := hT.exists_descending
  obtain ⟨c, hr⟩ := Chain.exists_reach hn.refuses hs hc
  refine ⟨c, hr, ?_⟩
  rw [reachHardened, hd]
  simp only [hc, if_true, reach, hr]

theorem reachHardened_of_unknown (hT : n.Target T) (hc : n.tree.contains T = false) :
    n.reachHardened = (.ok (), { n with anchor := n.anchor.postpone T default }) := by
  obtain ⟨height, l, hd⟩ := hT.exists_descending
  rw [reachHardened, hd]
  simp only [hc, Bool.false_eq_true, if_false]

theorem reachHardened_of_empty (he : n.anchor.network.hardened = ∅) :
    n.reachHardened = (.ok (), n) := by
  rw [reachHardened, Network.descending_of_empty he]

/-- Once the highest hardened block has been dealt with, the highest one on the main chain is
written, if there is one. -/
theorem reset_of_reachHardened (hp : n.reachHardened = (.ok (), k)) (hk : k.Reliable) :
    (n.reset = (.ok false, k) ∧ ∀ (height : UInt64) (h : Hash),
      k.anchor.network.hardened[height]? = some h → k.tree.isOnMain h = false) ∨
    ∃ h m, k.anchor.network.Highest (fun x ↦ k.tree.isOnMain x = true) h ∧
      n.reset = (.ok true, m) ∧ k.Writing h (.ok (), m) := by
  rw [reset, hp]
  dsimp only
  cases hf : k.anchor.network.descending.find? fun p ↦ k.tree.isOnMain p.2 with
  | none =>
    refine Or.inl ⟨rfl, fun height h hh ↦ ?_⟩
    have hoff := List.find?_eq_none.mp hf (height, h) (Network.mem_descending.mpr hh)
    simpa using hoff
  | some p =>
    have hw := k.write_outcome p.2
    rcases hm : k.write p.2 with ⟨u, m⟩
    rw [hm] at hw
    obtain ⟨rfl, -⟩ := hw.reliable hk
    refine Or.inr ⟨p.2, m, Network.highest_of_find? hf, ?_, hw⟩
    simp only [hm]

theorem Writing.persisted {h : Hash} (hw : n.Writing h (.ok (), k)) :
    k.journal.persisted = .ok (some h) := by
  cases hw with
  | saved j hj => exact Journal.persisted_of_putCheckpoint_ok hj

theorem Writing.anchor {h : Hash} (hw : n.Writing h (.ok (), k)) :
    k.anchor = { n.anchor with current := h } := by
  cases hw with
  | saved j hj => rfl

/-- Where a reset leads to.  With no table nothing changes.  If the highest hardened block is known,
it becomes the checkpoint, in memory and in the store, and the main chain is switched to it only if
it was on another branch.  If it is not known, the main chain stays, the block is waited for, and
the highest hardened block on the main chain becomes the checkpoint; where there is none the
checkpoint stays.  Nothing else that a node keeps about checkpoints changes. -/
theorem reset_exact (n : Node) (hn : n.Reliable) (hr : n.tree.Reachable)
    (hsize : n.tree.size < UInt64.size) :
    (n.anchor.network.hardened = ∅ → n.reset = (.ok false, n)) ∧
    (∀ T, n.Target T → n.tree.contains T = true →
      n.reset.1 = .ok true ∧ n.reset.2.anchor = { n.anchor with current := T } ∧
      n.reset.2.journal.persisted = .ok (some T) ∧ n.reset.2.tree.isOnMain T = true ∧
      n.reset.2.tree.best = if n.tree.isOnMain T then n.tree.best else T) ∧
    (∀ T, n.Target T → n.tree.contains T = false →
      n.reset.2.tree = n.tree ∧
      ((∃ h, n.anchor.network.Highest (fun x ↦ n.tree.isOnMain x = true) h ∧
          n.reset.1 = .ok true ∧
          n.reset.2.anchor = { n.anchor.postpone T default with current := h } ∧
          n.reset.2.journal.persisted = .ok (some h)) ∨
        (∀ (height : UInt64) (h : Hash), n.anchor.network.hardened[height]? = some h →
          n.tree.isOnMain h = false) ∧
          n.reset = (.ok false, { n with anchor := n.anchor.postpone T default }))) := by
  have hs := hr.sound hsize
  refine ⟨fun he ↦ ?_, fun T hT hc ↦ ?_, fun T hT hc ↦ ?_⟩
  · rcases reset_of_reachHardened (reachHardened_of_empty he) hn with ⟨hreset, -⟩ | ⟨h, m, hh, -⟩
    · exact hreset
    · obtain ⟨height, hh, -⟩ := hh
      rw [he, Std.ExtTreeMap.getElem?_empty] at hh
      cases hh
  · obtain ⟨c, hreach, hp⟩ := reachHardened_of_known hn hs hT hc
    have hrefuses := n.chain.reach_refuses T
    rw [hreach] at hrefuses
    have hmain := Chain.isOnMain_of_reach hs hreach
    have hbest := Chain.best_of_reach hs hreach
    -- the target has been brought onto the main chain, so it is the highest block there
    have hhighest : n.anchor.network.Highest (fun x ↦ c.tree.isOnMain x = true) T := by
      obtain ⟨height, hheight, -, hmax⟩ := hT
      exact ⟨height, hheight, hmain, fun i x hx _ ↦ hmax i x hx trivial⟩
    rcases reset_of_reachHardened hp ⟨hrefuses.trans hn.refuses, hn.journal⟩ with
      ⟨-, hoff⟩ | ⟨h, m, hh, hreset, hw⟩
    · obtain ⟨height, hheight, -⟩ := hT
      cases hmain.symm.trans (hoff height T hheight)
    · obtain rfl := hh.unique hhighest
      rw [hreset, hw.tree]
      exact ⟨rfl, hw.anchor, hw.persisted, hmain, hbest⟩
  · rcases reset_of_reachHardened (reachHardened_of_unknown hT hc) ⟨hn.refuses, hn.journal⟩ with
      ⟨hreset, hoff⟩ | ⟨h, m, hh, hreset, hw⟩
    · rw [hreset]
      exact ⟨rfl, Or.inr ⟨hoff, rfl⟩⟩
    · rw [hreset]
      exact ⟨hw.tree, Or.inl ⟨h, hh, rfl, hw.anchor, hw.persisted⟩⟩

/-- Three hardened blocks under heights that are not their own: one off the main chain, two on it;
the fourth one is not known. -/
def awaiting : Node :=
  let h (n : Nat) : Hash := Digest.ofNatLE n
  { forking with
    anchor := .new { (default : Network) with
      hardened := Network.table [(5, h 3), (6, h 1), (7, h 2), (9, h 9)] } .strict
    chain := ⟨(BlockTree.withGenesis (h 0) 0).run [.insert (h 1) (h 0) 30, .insert (h 2) (h 1) 60,
      .insert (h 3) (h 0) 40, .setBest (h 2)], false⟩ }

theorem reset_exact_forking :
    let h (n : Nat) : Hash := Digest.ofNatLE n
    (forking.Reliable ∧ forking.tree.Reachable ∧ forking.tree.size < UInt64.size ∧
      forking.Target (h 3) ∧ forking.tree.contains (h 3) = true ∧
      forking.tree.isOnMain (h 3) = false ∧ forking.reset.1 = .ok true ∧
      forking.reset.2.anchor = { forking.anchor with current := h 3 } ∧
      forking.reset.2.journal.persisted = .ok (some (h 3)) ∧ forking.reset.2.tree.best = h 3) ∧
    (awaiting.Reliable ∧ awaiting.tree.Reachable ∧ awaiting.tree.size < UInt64.size ∧
      awaiting.Target (h 9) ∧ awaiting.tree.contains (h 9) = false ∧
      awaiting.reset.2.tree = awaiting.tree ∧ awaiting.reset.1 = .ok true ∧
      awaiting.reset.2.anchor = { awaiting.anchor.postpone (h 9) default with current := h 2 } ∧
      awaiting.reset.2.journal.persisted = .ok (some (h 2))) := by
  intro h
  have hn : forking.Reliable := ⟨rfl, Journal.reliable_ofStore rfl⟩
  have hn' : awaiting.Reliable := ⟨rfl, Journal.reliable_ofStore rfl⟩
  have hr : forking.tree.Reachable := ⟨_, _, _, rfl⟩
  have hr' : awaiting.tree.Reachable := ⟨_, _, _, rfl⟩
  have hsize : forking.tree.size < UInt64.size := by decide +kernel
  have hsize' : awaiting.tree.size < UInt64.size := by decide +kernel
  have hT : forking.Target (h 3) :=
    target_of_descending (p := (1, h 3)) (l := []) (by decide +kernel)
  have hT' : awaiting.Target (h 9) :=
    target_of_descending (p := (9, h 9)) (l := [(7, h 2), (6, h 1), (5, h 3)]) (by decide +kernel)
  have hc : forking.tree.contains (h 3) = true := by decide +kernel
  have hc' : awaiting.tree.contains (h 9) = false := by decide +kernel
  have hoff : forking.tree.isOnMain (h 3) = false := by decide +kernel
  have hon : awaiting.tree.isOnMain (h 2) = true := by decide +kernel
  have hhighest : awaiting.anchor.network.Highest (fun x ↦ awaiting.tree.isOnMain x = true) (h 2) :=
    Network.highest_of_find? (q := (7, h 2)) (by decide +kernel)
  obtain ⟨-, hknown, -⟩ := reset_exact forking hn hr hsize
  obtain ⟨-, -, hunknown⟩ := reset_exact awaiting hn' hr' hsize'
  obtain ⟨hok, ha, hp, -, hbest⟩ := hknown (h 3) hT hc
  obtain ⟨htree, hcases⟩ := hunknown (h 9) hT' hc'
  rw [hoff] at hbest
  refine ⟨⟨hn, hr, hsize, hT, hc, hoff, hok, ha, hp, hbest⟩,
    hn', hr', hsize', hT', hc', htree, ?_⟩
  rcases hcases with ⟨x, hx, hok', ha', hp'⟩ | ⟨hnone, -⟩
  · obtain rfl := hx.unique hhighest
    exact ⟨hok', ha', hp'⟩
  · obtain ⟨height, hh, -⟩ := hhighest
    cases hon.symm.trans (hnone height (h 2) hh)

end Node

end ChainAnchor
