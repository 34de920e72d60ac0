import ChainAnchor.Proofs.BlockTree.Judgement
import ChainAnchor.Proofs.BlockTree.Size
import ChainAnchor.Proofs.Node.Outcome

namespace ChainAnchor

open BlockTree

namespace Anchor

variable {a : Anchor} {t : BlockTree} {h : Hash}

/-- What a block that is validated, its tree and the checkpoint have to do with each other, and what
comes of it. -/
inductive Verdict (a : Anchor) (t : BlockTree) (h : Hash) : Except AnchorError Bool × Anchor → Prop
  | astray : t.contains a.current = false → Verdict a t h (.error (.unknownBlock a.current), a)
  | unknown : t.contains a.current = true → t.contains h = false →
      Verdict a t h (.error (.unknownBlock h), a)
  | above : t.contains a.current = true → t.contains h = true → t.StrictAncestor a.current h →
      Verdict a t h (.ok true, a)
  | below : t.contains a.current = true → t.contains h = true → t.Ancestor h a.current →
      Verdict a t h (.ok false, a)
  | apart : t.contains a.current = true → t.contains h = true → ¬t.Ancestor a.current h →
      ¬t.Ancestor h a.current → Verdict a t h (.error (.conflict h), { a with invalid := some h })

theorem judge_of_astray (hc : t.contains a.current = false) :
    judge t a.current h = .error (.unknownBlock a.current) := by
  rw [judge, contains_eq_false_iff.mp hc]

theorem judge_of_unknown (hc : t.contains a.current = true) (hh : t.contains h = false) :
    judge t a.current h = .error (.unknownBlock h) := by
  obtain ⟨x, hx⟩ := contains_iff.mp hc
  rw [judge, hx, contains_eq_false_iff.mp hh]

theorem validate_verdict (hr : t.Rooted) (a : Anchor) (h : Hash) :
    a.Verdict t h (a.validate t h) := by
  cases hc : t.contains a.current with
  | false =>
    rw [validate, judge_of_astray hc]
    exact .astray hc
  | true =>
    cases hh : t.contains h with
    | false =>
      rw [validate, judge_of_unknown hc hh]
      exact .unknown hc hh
    | true =>
      by_cases hhc : t.Ancestor h a.current
      · rw [validate_of_judge (hr.judge_of_ancestor hhc hc)]
        exact .below hc hh hhc
      by_cases hch : t.Ancestor a.current h
      · have hs := StrictAncestor.of_ne hch fun he ↦ hhc (he ▸ .refl)
        rw [validate_of_judge (hr.judge_of_strictAncestor hs hh)]
        exact .above hc hh hs
      · rw [validate, hr.judge_of_apart hc hh hch hhc]
        exact .apart hc hh hch hhc

end Anchor

namespace Node

theorem validate_eq (n : Node) (h : Hash) :
    n.validate h = ((n.anchor.validate n.tree h).1,
      { n with anchor := (n.anchor.validate n.tree h).2 }) := rfl

/-- A block that is validated lies above the checkpoint, is it or lies below it, or conflicts with
it, and each answer is given in its own case only; a tree whose blocks can be counted in a word is
never found corrupt, nor is a height.  Nothing changes but for the note of a conflict. -/
theorem validate_trichotomy (n : Node) (h : Hash) (hr : n.tree.Reachable)
    (hsize : n.tree.size < UInt64.size) :
    (n.tree.contains n.anchor.current = false →
      (n.validate h).1 = .error (.unknownBlock n.anchor.current)) ∧
    (n.tree.contains n.anchor.current = true → n.tree.contains h = false →
      (n.validate h).1 = .error (.unknownBlock h)) ∧
    (n.tree.contains n.anchor.current = true → n.tree.contains h = true →
      ((n.validate h).1 = .ok true ↔ n.tree.StrictAncestor n.anchor.current h) ∧
      ((n.validate h).1 = .ok false ↔ n.tree.Ancestor h n.anchor.current) ∧
      ((n.validate h).1 = .error (.conflict h) ↔
        ¬n.tree.Ancestor n.anchor.current h ∧ ¬n.tree.Ancestor h n.anchor.current)) ∧
    (n.validate h).1 ≠ .error .corruptTree ∧ (∀ e, (n.validate h).1 ≠ .error (.tree e)) ∧
    ((n.validate h).1 = .error (.conflict h) ∧
        (n.validate h).2 = { n with anchor := { n.anchor with invalid := some h } } ∨
      (n.validate h).1 ≠ .error (.conflict h) ∧ (n.validate h).2 = n) := by
  have hrooted := (hr.sound hsize).toRooted
  have hv := Anchor.validate_verdict hrooted n.anchor h
  rw [validate_eq]
  rcases hr : n.anchor.validate n.tree h with ⟨r, a⟩
  rw [hr] at hv
  cases hv with
  | astray hc => simp [hc]
  | unknown hc hh => simp [hc, hh]
  | above hc hh hs =>
    have hbelow := hrooted.not_ancestor_of_strictAncestor hs
    have ha : n.tree.Ancestor n.anchor.current h := hs.to_reflTransGen
    simp [hc, hh, hs, hbelow, ha]
  | below hc hh ha =>
    have habove : ¬n.tree.StrictAncestor n.anchor.current h := fun hs ↦
      hrooted.not_ancestor_of_strictAncestor hs ha
    simp [hc, hh, ha, habove]
  | apart hc hh hch hhc =>
    have habove : ¬n.tree.StrictAncestor n.anchor.current h := fun hs ↦ hch hs.to_reflTransGen
    simp [hc, hh, hch, hhc, habove]

def forked : Node where
  anchor := { Anchor.new { (default : Network) with enforces := true } .strict with
    current := Digest.ofNatLE 1 }
  chain := ⟨(BlockTree.withGenesis (Digest.ofNatLE 0) 0).run
    [.insert (Digest.ofNatLE 1) (Digest.ofNatLE 0) 30,
      .insert (Digest.ofNatLE 2) (Digest.ofNatLE 1) 60,
      .insert (Digest.ofNatLE 3) (Digest.ofNatLE 0) 40], false⟩
  journal := .empty
  peers := ∅

theorem reachable_forked : forked.tree.Reachable := ⟨Digest.ofNatLE 0, 0, _, rfl⟩

theorem size_forked : forked.tree.size < UInt64.size := by decide +kernel

theorem validate_trichotomy_forked :
    let n := forked
    let h := Digest.ofNatLE 3
    n.tree.Reachable ∧ n.tree.size < UInt64.size ∧
      n.tree.contains n.anchor.current = true ∧ n.tree.contains h = true ∧
      (((n.validate h).1 = .ok true ↔ n.tree.StrictAncestor n.anchor.current h) ∧
        ((n.validate h).1 = .ok false ↔ n.tree.Ancestor h n.anchor.current) ∧
        ((n.validate h).1 = .error (.conflict h) ↔
          ¬n.tree.Ancestor n.anchor.current h ∧ ¬n.tree.Ancestor h n.anchor.current)) ∧
      (n.validate h).2.anchor.invalid = some h := by
  intro n h
  have hc : n.tree.contains n.anchor.current = true := by decide +kernel
  have hh : n.tree.contains h = true := by decide +kernel
  obtain ⟨-, -, hexact, -⟩ := validate_trichotomy n h reachable_forked size_forked
  exact ⟨reachable_forked, size_forked, hc, hh, hexact hc hh, by decide +kernel⟩

end Node

end ChainAnchor
