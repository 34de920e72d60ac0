import ChainAnchor.Proofs.Node.Progress

namespace ChainAnchor

namespace Anchor

variable {a a' : Anchor} {t : BlockTree} {h p : Hash} {catchingUp : Bool}

theorem permits_of_accept (hp : a.policy = .strict)
    (ha : a.accept t h p catchingUp = (.ok (), a')) : a.permits t h p catchingUp = true := by
  rw [accept] at ha
  split at ha
  · cases ha
  · dsimp only at ha
    split at ha
    · cases ha
    · split at ha
      next hper => exact hper
      next => rw [hp] at ha; cases ha

/-- A block that is new to the tree is permitted only below the checkpoint; at its height and above
it only blocks that are known already are. -/
theorem ancestor_of_permits (hk : t.Keyed) (he : a.network.enforces = true)
    (hh : t.contains h = false) (hp : a.permits t h p false = true) :
    t.Ancestor a.current p := by
  rw [permits, he] at hp
  simp only [Bool.not_true, Bool.false_eq_true, if_false] at hp
  split at hp
  · cases hp
  next q hq =>
    split at hp
    · cases hp
    next c hc =>
      split at hp
      · split at hp
        · cases hp
        next x hx =>
          obtain ⟨-, ha⟩ := BlockTree.ancestor_of_ancestor hk hx
          rwa [of_decide_eq_true hp] at ha
      · split at hp
        · rw [of_decide_eq_true hp, BlockTree.contains_eq_false_iff, hc] at hh
          cases hh
        · rw [hp] at hh
          cases hh

end Anchor

namespace Node

open BlockTree

variable {n m : Node} {h : Hash}

/-- The checkpoint stays or rises, and every block that is new descends from it. -/
structure Guards (n m : Node) : Prop extends n.Advances m where
  descends (h : Hash) : n.tree.contains h = false → m.tree.contains h = true →
    m.tree.StrictAncestor n.anchor.current h

theorem Guards.trans {k : Node} (h₁ : n.Guards m) (h₂ : m.Guards k) : n.Guards k := by
  refine ⟨h₁.toAdvances.trans h₂.toAdvances, fun x hn hk ↦ ?_⟩
  cases hm : m.tree.contains x with
  | true => exact h₂.tree.strictAncestor (h₁.descends x hn hm)
  | false =>
    have ha := h₂.descends x hm hk
    rcases h₁.current with hc | hc
    · rwa [hc] at ha
    · exact Relation.TransGen.trans (h₂.tree.strictAncestor hc.strictAncestor) ha

instance : Trans Guards Guards Guards := ⟨Guards.trans⟩

theorem Advances.guards (ha : n.Advances m) (hc : ∀ x, m.tree.contains x = n.tree.contains x) :
    n.Guards m := by
  refine ⟨ha, fun x hn hm ↦ ?_⟩
  rw [hc, hn] at hm
  cases hm

/-- A block that is received under a strict policy descends from the checkpoint. -/
theorem strictAncestor_of_accept {p x : Hash} {time : Int64} {a : Anchor}
    (hr : n.tree.Reachable) (he : n.anchor.network.enforces = true)
    (hp : n.anchor.policy = .strict) (ha : n.anchor.accept n.tree h p false = (.ok (), a))
    (hn : n.tree.contains x = false) (hx : (n.tree.insert h p time).2.contains x = true) :
    (n.tree.insert h p time).2.StrictAncestor n.anchor.current x := by
  have hext := insert_extends n.tree h p time
  rcases insert_cases n.tree h p time with ⟨e, hi⟩ | ⟨q, t', hh, hq, hi, hg, -⟩
  · rw [hi, hn] at hx
    cases hx
  rw [hi] at hx hext ⊢
  obtain ⟨b, hb⟩ := contains_iff.mp hx
  rw [hg] at hb
  split at hb
  next hhx =>
    subst hhx
    have hanc := Anchor.ancestor_of_permits hr.keyed he hn (Anchor.permits_of_accept hp ha)
    have hpar : t'.IsParent p h := ⟨_, (hg h).trans (if_pos rfl), rfl⟩
    exact Relation.TransGen.tail' (hext.ancestor hanc) hpar
  next =>
    rw [contains_eq_false_iff.mp hn] at hb
    cases hb

theorem Step.guards {e : Event} (hs : n.Step e m) (hr : n.tree.Reachable)
    (he : n.anchor.network.enforces = true) (hp : n.anchor.policy = .strict)
    (hg : e.isGuarded) : n.Guards m := by
  have ha := hs.advances hr
  cases hs with
  | forward hf => exact ha.guards hf.tree.relinked.contains_eq
  | grown f hf =>
    subst hf
    cases f with
    | insert h p time => cases hg
    | addOrphan h p =>
      refine ha.guards fun x ↦ ?_
      rw [tree, grow, BlockTree.Event.apply, addOrphan]
      dsimp only
      split <;> rfl
    | setBest h => exact ha.guards (setBest_relinked n.tree h).contains_eq
  | received h p time catchingUp a hf hacc =>
    subst hf
    cases catchingUp with
    | true => cases hg
    | false => exact ⟨ha, fun x hn hm ↦ strictAncestor_of_accept hr he hp hacc hn hm⟩

theorem Event.isForward_of_isGuarded {e : Event} (he : e.isGuarded) : e.isForward := by
  cases e with
  | reset => cases he
  | write h => cases he
  | checkMasterKey => cases he
  | useChain c => cases he
  | _ => rfl

def IsStrict (n : Node) : Prop :=
  n.tree.Reachable ∧ n.anchor.network.enforces = true ∧ n.anchor.policy = .strict

theorem Step.isStrict {e : Event} (hs : n.Step e m) (hn : n.IsStrict) : m.IsStrict := by
  have ha := hs.advances hn.1
  exact ⟨hs.reachable hn.1, ha.network ▸ hn.2.1, ha.policy.trans hn.2.2⟩

theorem pairwise_guards {es : List Event} (hn : n.IsStrict) (hes : ∀ e ∈ es, e.isGuarded) :
    (n.history es).Pairwise Guards := by
  have hes' : ∀ e ∈ es, e.isForward := fun e he ↦ Event.isForward_of_isGuarded (hes e he)
  refine ((isChain_step hes' n).imp_of_mem_imp ?_).pairwise
  rintro k k' hk - ⟨e, he, hs⟩
  obtain ⟨hr, hen, hp⟩ := of_mem_history hes' (fun _ _ _ hs ↦ hs.isStrict) hn hk
  exact hs.guards hr hen hp (hes e he)

/-- Each block that joins the tree after a block has become the checkpoint descends from it. -/
theorem strictAncestor_of_joined (n : Node) (hr : n.tree.Reachable)
    (he : n.anchor.network.enforces = true) (hp : n.anchor.policy = .strict) (es : List Event)
    (hes : ∀ e ∈ es, e.isGuarded) (m : Node) (hm : m ∈ n.history es) (h : Hash)
    (hold : m.tree.contains h = false) (hnew : (n.run es).tree.contains h = true) :
    (n.run es).tree.StrictAncestor m.anchor.current h := by
  rcases eq_or_of_pairwise_history (pairwise_guards ⟨hr, he, hp⟩ hes) hm with heq | hg
  · rw [heq, hnew] at hold
    cases hold
  · exact hg.descends h hold hnew

def enforcing : Node where
  anchor := { Anchor.new { (default : Network) with hardened := ∅, enforces := true } .strict with
    current := Digest.ofNatLE 0, pending := some (Digest.ofNatLE 1) }
  chain := ⟨.withGenesis (Digest.ofNatLE 0) 0, false⟩
  journal := .empty
  peers := ∅

def contest : List Event :=
  let h (n : Nat) : Hash := Digest.ofNatLE n
  [.receive (h 1) (h 0) 30 false, .acceptPending [], .receive (h 3) (h 0) 40 false,
    .receive (h 2) (h 1) 60 false]

theorem strictAncestor_of_joined_contest :
    enforcing.tree.Reachable ∧ enforcing.anchor.network.enforces = true ∧
      enforcing.anchor.policy = .strict ∧ (∀ e ∈ contest, e.isGuarded) ∧
      enforcing.run (contest.take 2) ∈ enforcing.history contest ∧
      (enforcing.run (contest.take 2)).tree.contains (Digest.ofNatLE 2) = false ∧
      (enforcing.run contest).tree.contains (Digest.ofNatLE 2) = true ∧
      (enforcing.run contest).tree.StrictAncestor
        (enforcing.run (contest.take 2)).anchor.current (Digest.ofNatLE 2) ∧
      (enforcing.run (contest.take 2)).anchor.current = Digest.ofNatLE 1 ∧
      (enforcing.run contest).tree.contains (Digest.ofNatLE 3) = false := by
  have hr : enforcing.tree.Reachable := ⟨Digest.ofNatLE 0, 0, [], rfl⟩
  have hes : ∀ e ∈ contest, e.isGuarded := by simp [contest, Event.isGuarded, Event.isForward]
  have hm : enforcing.run (contest.take 2) ∈ enforcing.history contest :=
    List.mem_cons_of_mem _ (List.mem_cons_of_mem _ List.mem_cons_self)
  have hold : (enforcing.run (contest.take 2)).tree.contains (Digest.ofNatLE 2) = false := by
    decide +kernel
  have hnew : (enforcing.run contest).tree.contains (Digest.ofNatLE 2) = true := by
    decide +kernel
  exact ⟨hr, rfl, rfl, hes, hm, hold, hnew,
    strictAncestor_of_joined enforcing hr rfl rfl contest hes _ hm _ hold hnew,
    by decide +kernel, by decide +kernel⟩

end Node

end ChainAnchor
