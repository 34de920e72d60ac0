import ChainAnchor.Anchor
import ChainAnchor.Proofs.BlockTree.Rooted

namespace ChainAnchor.BlockTree.Rooted

variable {t : BlockTree} {a c h p : Hash} {b x : Block}

theorem level_lt (hr : t.Rooted) (ha : t.StrictAncestor a h) : t.level a < t.level h := by
  rcases Relation.TransGen.tail'_iff.mp ha with ⟨p, hap, hp⟩
  have hle := hr.level_le hap
  have hl := hr.level_parent hp
  omega

theorem not_ancestor_of_strictAncestor (hr : t.Rooted) (ha : t.StrictAncestor a h) :
    ¬t.Ancestor h a := by
  intro hb
  have hlt := hr.level_lt ha
  have hle := hr.level_le hb
  omega

theorem eq_of_level_le (hr : t.Rooted) (ha : t.Ancestor a h) (hl : t.level h ≤ t.level a) :
    a = h := by
  rcases Relation.reflTransGen_iff_eq_or_transGen.mp ha with he | ha
  · exact he.symm
  · have hlt := hr.level_lt ha
    omega

/-- The walk goes down one level at a time, so it cannot pass an ancestor by. -/
theorem descend_eq (hr : t.Rooted) (hx : t.get? a = some x) {steps : Nat} (hb : t.get? h = some b)
    (ha : t.Ancestor a h) (hs : t.level h ≤ t.level a + steps) :
    t.descend x.height steps b = .ok x := by
  induction steps generalizing h b with
  | zero =>
    obtain rfl := hr.eq_of_level_le ha hs
    rw [descend, Option.some.inj (hb.symm.trans hx)]
  | succ steps ih =>
    have hlx := level_of_get? hx
    have hlb := level_of_get? hb
    rw [descend]
    split
    next hlt =>
      have hlt := UInt64.lt_iff_toNat_lt.mp hlt
      rcases Relation.ReflTransGen.cases_tail ha with rfl | ⟨p, hap, hp⟩
      · omega
      have hlp := hr.level_parent hp
      obtain ⟨q, hq⟩ := contains_iff.mp (hr.contains_parent hp)
      obtain ⟨b', hb', hbp⟩ := hp
      obtain rfl := Option.some.inj (hb'.symm.trans hb)
      simp only [parentOf, parent?, hbp, hq, Option.bind_some]
      exact ih hq hap (by omega)
    next hle =>
      have hle := UInt64.le_iff_toNat_le.mp (UInt64.not_lt.mp hle)
      obtain rfl := hr.eq_of_level_le ha (by omega)
      rw [Option.some.inj (hb.symm.trans hx)]

theorem ancestor_eq (hr : t.Rooted) (hx : t.get? a = some x) (hh : t.contains h = true)
    (ha : t.Ancestor a h) : t.ancestor h x.height = .ok x := by
  obtain ⟨b, hb⟩ := contains_iff.mp hh
  have hle := hr.level_le ha
  rw [level_of_get? hx, level_of_get? hb] at hle
  rw [ancestor, hb]
  simp only [UInt64.not_lt.mpr (UInt64.le_iff_toNat_le.mpr hle), if_false]
  refine hr.descend_eq hx hb ha ?_
  rw [level_of_get? hx, level_of_get? hb]
  omega

theorem judge_of_strictAncestor (hr : t.Rooted) (ha : t.StrictAncestor c h)
    (hh : t.contains h = true) : Anchor.judge t c h = .ok true := by
  have hanc : t.Ancestor c h := ha.to_reflTransGen
  obtain ⟨x, hx⟩ := contains_iff.mp (hr.contains_ancestor hanc hh)
  obtain ⟨b, hb⟩ := contains_iff.mp hh
  have hlt := hr.level_lt ha
  rw [level_of_get? hx, level_of_get? hb] at hlt
  have hn : ¬b.height ≤ x.height := UInt64.not_le.mpr (UInt64.lt_iff_toNat_lt.mpr hlt)
  simp only [Anchor.judge, hx, hb, if_neg hn, hr.ancestor_eq hx hh hanc, hr.keyed hx, if_true]

theorem judge_of_ancestor (hr : t.Rooted) (ha : t.Ancestor h c) (hc : t.contains c = true) :
    Anchor.judge t c h = .ok false := by
  obtain ⟨x, hx⟩ := contains_iff.mp hc
  obtain ⟨b, hb⟩ := contains_iff.mp (hr.contains_ancestor ha hc)
  have hle := hr.level_le ha
  rw [level_of_get? hx, level_of_get? hb] at hle
  have hle : b.height ≤ x.height := UInt64.le_iff_toNat_le.mpr hle
  simp only [Anchor.judge, hx, hb, if_pos hle, hr.ancestor_eq hb hc ha, hr.keyed hb, if_true]

/-- Walking down to the height of any block that is not above ends at a block, and it is that one
exactly if it is an ancestor. -/
theorem exists_ancestor_eq (hr : t.Rooted) (hx : t.get? a = some x) (hb : t.get? h = some b)
    (hle : x.height ≤ b.height) :
    ∃ y, t.ancestor h x.height = .ok y ∧ (y.hash = a ↔ t.Ancestor a h) := by
  have hh : t.contains h = true := contains_iff.mpr ⟨b, hb⟩
  obtain ⟨y, hwalk, -, -, hya, -⟩ := hr.graded.exists_ancestor_ok hb hle
  refine ⟨y, hwalk, fun he ↦ he ▸ hya, fun ha ↦ ?_⟩
  rw [hr.ancestor_eq hx hh ha] at hwalk
  rw [← Except.ok.inj hwalk, hr.keyed hx]

theorem judge_of_apart (hr : t.Rooted) (hc : t.contains c = true) (hh : t.contains h = true)
    (hch : ¬t.Ancestor c h) (hhc : ¬t.Ancestor h c) :
    Anchor.judge t c h = .error (.conflict h) := by
  obtain ⟨x, hx⟩ := contains_iff.mp hc
  obtain ⟨b, hb⟩ := contains_iff.mp hh
  by_cases hle : b.height ≤ x.height
  · obtain ⟨y, hy, hiff⟩ := hr.exists_ancestor_eq hb hx hle
    simp only [Anchor.judge, hx, hb, if_pos hle, hy, if_neg (mt hiff.mp hhc)]
  · have hge : x.height ≤ b.height := UInt64.le_of_lt (UInt64.not_le.mp hle)
    obtain ⟨y, hy, hiff⟩ := hr.exists_ancestor_eq hx hb hge
    simp only [Anchor.judge, hx, hb, if_neg hle, hy, if_neg (mt hiff.mp hch)]

end ChainAnchor.BlockTree.Rooted
