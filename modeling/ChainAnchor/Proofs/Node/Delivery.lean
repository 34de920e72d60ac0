import ChainAnchor.Proofs.Node.Arrivals

namespace ChainAnchor

namespace Node

open BlockTree

variable {n m k : Node} {a : Anchor} {t : BlockTree} {x : Arrival}
  {xs rest pre mid post : List Arrival} {h p : Hash} {c c' d d' : Checkpoint}
  {sender : Option PeerId} {ids : List PeerId}

structure Heads (t : BlockTree) (h : Hash) (n : Node) : Prop where
  current : t.Ancestor n.anchor.current h
  pending (p : Hash) : n.anchor.pending = some p → t.contains p = true → t.Ancestor p h

structure Aims (t : BlockTree) (h : Hash) (n : Node) : Prop extends Heads t h n where
  aims : n.anchor.current = h ∨ n.anchor.pending = some h

structure Settled (t : BlockTree) (h : Hash) (n : Node) : Prop extends Heads t h n where
  settled : n.anchor.current = h ∨ (n.anchor.pending = some h ∧ n.tree.contains h = false)

theorem Settled.current_eq (hs : Settled t h n) (hc : n.tree.contains h = true) :
    n.anchor.current = h := by
  rcases hs.settled with he | ⟨-, hn⟩
  · exact he
  · rw [hc] at hn
    cases hn

theorem Heads.mono (hn : Heads t p n) (ha : t.Ancestor p h) : Heads t h n :=
  ⟨hn.current.trans ha, fun q hq hc ↦ (hn.pending q hq hc).trans ha⟩

theorem Acceptance.heads {r : Except AnchorError Bool} (ha : n.Acceptance ids (r, m))
    (hu : Underway t rest n) (ht : t.size < UInt64.size) (hn : Heads t h n) : Heads t h m := by
  cases ha with
  | idle => exact hn
  | dropped p r a hp hc hv =>
    refine ⟨?_, nofun⟩
    rw [(dropped_kept hv).anchor.current]
    exact hn.current
  | failed p e m hp hc hj hm => exact (hm.false_of_error hu.reliable (hu.sound ht) hc).elim
  | accepted p m hp hc hj hm =>
    refine ⟨?_, ?_⟩
    · rw [promote_anchor, hm.anchor]
      exact hn.pending p hp (hu.grows.contains hc)
    · rw [promote_anchor]
      exact nofun

/-- What aims at a block comes to it as soon as the block is there. -/
theorem Acceptance.settled {r : Except AnchorError Bool} (ha : n.Acceptance ids (r, m))
    (hu : Underway t rest n) (ht : t.size < UInt64.size) (hn : Aims t h n) : Settled t h m := by
  refine ⟨ha.heads hu ht hn.toHeads, ?_⟩
  have hr := hu.rooted ht
  cases ha with
  | idle hi => exact hn.aims.imp_right fun hp ↦ ⟨hp, hi h hp⟩
  | dropped p r a hp hc hv hne =>
    left
    rw [(dropped_kept hv).anchor.current]
    rcases hn.aims with he | he
    · exact he
    · -- what is dropped does not descend from the checkpoint, so it is the checkpoint
      obtain rfl := Option.some.inj (hp.symm.trans he)
      rcases hu.judge ht hc hn.current with ⟨-, hj⟩ | ⟨he, -⟩
      · rw [Anchor.validate_of_judge hj] at hv
        exact absurd (Prod.mk.inj hv).1.symm hne
      · exact he
  | failed p e m hp hc hj hm => exact (hm.false_of_error hu.reliable (hu.sound ht) hc).elim
  | accepted p m hp hc hj hm =>
    left
    rw [promote_anchor, hm.anchor]
    rcases hn.aims with he | he
    · -- the pending block would be above the checkpoint and below it at once
      have hs := hu.strictAncestor_of_judge hj
      have hlt := hr.level_lt hs
      have hle := hr.level_le (hn.pending p hp (hu.grows.contains hc))
      rw [he] at hlt
      omega
    · exact Option.some.inj (hp.symm.trans he)

theorem heads_await (ha : t.Ancestor n.anchor.current h) (hd : t.Ancestor d.block h)
    (sender : Option PeerId) : Heads t h (n.await d sender) := by
  refine ⟨?_, fun p hp _ ↦ ?_⟩
  · rw [await_anchor]
    exact ha
  · rw [await_anchor] at hp
    exact Option.some.inj hp ▸ hd

theorem Processing.heads {r : Except AnchorError Bool} (hp : n.Processing c sender (r, m))
    (hu : Underway t rest n) (ht : t.size < UInt64.size)
    (hd : c.check n.anchor.network.masterKey = .ok d) (ha : t.Ancestor d.block h)
    (hn : Heads t h n) : Heads t h m := by
  cases hp with
  | unsigned e he => exact hn
  | awaited d' hd' hc =>
    obtain rfl := Except.ok.inj (hd'.symm.trans hd)
    exact heads_await hn.current ha sender
  | invalid d' e a hd' hc hv =>
    rcases Anchor.eq_or_eq_of_validate hv with rfl | rfl <;> exact ⟨hn.current, hn.pending⟩
  | older => exact hn
  | failed d' e m hd' hc hj hm => exact (hm.false_of_error hu.reliable (hu.sound ht) hc).elim
  | accepted d' m hd' hc hj hm =>
    obtain rfl := Except.ok.inj (hd'.symm.trans hd)
    refine ⟨?_, nofun⟩
    rw [hm.anchor]
    exact ha

/-- A checkpoint above the current one is the current one or pending after it has been processed,
whatever was pending. -/
theorem Processing.settled {r : Except AnchorError Bool} (hp : n.Processing c sender (r, m))
    (hu : Underway t rest n) (ht : t.size < UInt64.size)
    (hd : c.check n.anchor.network.masterKey = .ok d) (ha : t.Ancestor n.anchor.current d.block)
    (hn : n.anchor.current = d.block → Heads t d.block n) : Settled t d.block m := by
  cases hp with
  | unsigned e he => cases he.symm.trans hd
  | awaited d' hd' hc =>
    obtain rfl := Except.ok.inj (hd'.symm.trans hd)
    refine ⟨heads_await ha .refl sender, Or.inr ⟨?_, ?_⟩⟩
    · rw [await_anchor]
      rfl
    · rw [tree, (n.await_kept d' sender).chain]
      exact hc
  | invalid d' e a hd' hc hv =>
    obtain rfl := Except.ok.inj (hd'.symm.trans hd)
    rcases hu.judge ht hc ha with ⟨-, hj⟩ | ⟨-, hj⟩ <;>
      cases (Anchor.validate_of_judge hj).symm.trans hv
  | older d' hd' hc hj =>
    obtain rfl := Except.ok.inj (hd'.symm.trans hd)
    rcases hu.judge ht hc ha with ⟨-, hj'⟩ | ⟨he, -⟩
    · cases hj'.symm.trans hj
    · exact ⟨hn he, Or.inl he⟩
  | failed d' e m hd' hc hj hm => exact (hm.false_of_error hu.reliable (hu.sound ht) hc).elim
  | accepted d' m hd' hc hj hm =>
    obtain rfl := Except.ok.inj (hd'.symm.trans hd)
    refine ⟨⟨?_, nofun⟩, Or.inl ?_⟩
    · rw [hm.anchor]
      exact .refl
    · rw [hm.anchor]
      rfl

theorem Heads.arrive (hn : Heads t h n) (hu : Underway t (x :: rest) n)
    (ht : t.size < UInt64.size) : Heads t h (n.arrive x) :=
  ((n.grow x.insertion).acceptPending_outcome x.peers).heads hu.grow ht ⟨hn.current, hn.pending⟩

theorem Settled.arrive (hn : Settled t h n) (hu : Underway t (x :: rest) n)
    (ht : t.size < UInt64.size) : Settled t h (n.arrive x) :=
  ((n.grow x.insertion).acceptPending_outcome x.peers).settled hu.grow ht
    ⟨⟨hn.current, hn.pending⟩, hn.settled.imp_right And.left⟩

theorem Heads.run (hn : Heads t h n) (hu : Underway t (xs ++ rest) n)
    (ht : t.size < UInt64.size) :
    Underway t rest (n.run (arrivals xs)) ∧ Heads t h (n.run (arrivals xs)) :=
  hu.run (fun _ _ _ hu hn ↦ hn.arrive hu ht) hn

theorem Settled.run (hn : Settled t h n) (hu : Underway t (xs ++ rest) n)
    (ht : t.size < UInt64.size) :
    Underway t rest (n.run (arrivals xs)) ∧ Settled t h (n.run (arrivals xs)) :=
  hu.run (fun _ _ _ hu hn ↦ hn.arrive hu ht) hn

structure Rests (t : BlockTree) (h : Hash) (n : Node) : Prop where
  current : n.anchor.current = h
  pending (p : Hash) : n.anchor.pending = some p → ¬t.StrictAncestor h p

theorem Acceptance.rests {r : Except AnchorError Bool} (ha : n.Acceptance ids (r, m))
    (hu : Underway t rest n) (ht : t.size < UInt64.size) (hn : Rests t h n) : Rests t h m := by
  cases ha with
  | idle => exact hn
  | dropped p r a hp hc hv => exact ⟨(dropped_kept hv).anchor.current.trans hn.current, nofun⟩
  | failed p e m hp hc hj hm => exact (hm.false_of_error hu.reliable (hu.sound ht) hc).elim
  | accepted p m hp hc hj hm =>
    have hs := hu.strictAncestor_of_judge hj
    exact (hn.pending p hp (hn.current ▸ hs)).elim

theorem Processing.rests {r : Except AnchorError Bool} (hp : n.Processing c sender (r, m))
    (hu : Underway t rest n) (ht : t.size < UInt64.size)
    (hd : c.check n.anchor.network.masterKey = .ok d) (hs : ¬t.StrictAncestor h d.block)
    (hn : Rests t h n) : Rests t h m := by
  cases hp with
  | unsigned => exact hn
  | awaited d' hd' hc =>
    obtain rfl := Except.ok.inj (hd'.symm.trans hd)
    refine ⟨?_, fun p hp ↦ ?_⟩
    · rw [await_anchor]
      exact hn.current
    · rw [await_anchor] at hp
      exact Option.some.inj hp ▸ hs
  | invalid d' e a hd' hc hv =>
    rcases Anchor.eq_or_eq_of_validate hv with rfl | rfl <;> exact ⟨hn.current, hn.pending⟩
  | older => exact hn
  | failed d' e m hd' hc hj hm => exact (hm.false_of_error hu.reliable (hu.sound ht) hc).elim
  | accepted d' m hd' hc hj hm =>
    obtain rfl := Except.ok.inj (hd'.symm.trans hd)
    have hs' := hu.strictAncestor_of_judge hj
    exact (hs (hn.current ▸ hs')).elim

theorem Rests.run (hn : Rests t h n) (hu : Underway t (xs ++ rest) n) (ht : t.size < UInt64.size) :
    Rests t h (n.run (arrivals xs)) :=
  (hu.run (fun x _ n hu hn ↦ ((n.grow x.insertion).acceptPending_outcome x.peers).rests hu.grow ht
    ⟨hn.current, hn.pending⟩) hn).2

/-- What becomes of a pending checkpoint while blocks arrive: it stays pending without its block, or
is dropped because its block does not descend from the current checkpoint, or takes effect. -/
inductive Approach (t : BlockTree) (a : Anchor) (m : Node) : Prop
  | waiting : (∀ p, a.pending = some p → m.tree.contains p = false) →
      m.anchor.pending = a.pending → m.anchor.current = a.current → Approach t a m
  | dropped (p : Hash) : a.pending = some p → ¬t.StrictAncestor a.current p →
      m.anchor.pending = none → m.anchor.current = a.current → Approach t a m
  | accepted (p : Hash) : a.pending = some p → m.tree.contains p = true →
      t.StrictAncestor a.current p → m.anchor.pending = none → m.anchor.current = p →
      Approach t a m

theorem Approach.of_pending_eq_none (ha : Approach t a m) (hn : a.pending = none) :
    m.anchor.pending = none ∧ m.anchor.current = a.current := by
  cases ha with
  | waiting _ hp hc => exact ⟨hp.trans hn, hc⟩
  | dropped p hp => cases hn.symm.trans hp
  | accepted p hp => cases hn.symm.trans hp

theorem Approach.trans (hm : Approach t a m) (hk : Approach t m.anchor k)
    (he : m.tree.Extends k.tree) : Approach t a k := by
  cases hm with
  | waiting _ hp hc =>
    cases hk with
    | waiting hi hp' hc' => exact .waiting (hp ▸ hi) (hp'.trans hp) (hc'.trans hc)
    | dropped q hq hs hp' hc' => exact .dropped q (hp ▸ hq) (hc ▸ hs) hp' (hc'.trans hc)
    | accepted q hq hi hs hp' hc' => exact .accepted q (hp ▸ hq) hi (hc ▸ hs) hp' hc'
  | dropped q hq hs hp hc =>
    obtain ⟨hp', hc'⟩ := hk.of_pending_eq_none hp
    exact .dropped q hq hs hp' (hc'.trans hc)
  | accepted q hq hi hs hp hc =>
    obtain ⟨hp', hc'⟩ := hk.of_pending_eq_none hp
    exact .accepted q hq (he.contains hi) hs hp' (hc'.trans hc)

namespace Underway

end Underway

end Node

end ChainAnchor
