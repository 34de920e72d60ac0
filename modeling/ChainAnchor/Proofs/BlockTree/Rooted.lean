import ChainAnchor.Proofs.BlockTree.Graded

namespace ChainAnchor.BlockTree

variable {t t' : BlockTree} {a c h p x : Hash}

structure Rooted (t : BlockTree) : Prop where
  keyed : t.Keyed
  genesis : ∃ b, t.get? t.genesis = some b ∧ b.height = 0
  parentless : ∀ ⦃h b⦄, t.get? h = some b → (b.parent = none ↔ h = t.genesis)
  parented : ∀ ⦃h b p⦄, t.get? h = some b → b.parent = some p →
    ∃ q, t.get? p = some q ∧ b.height.toNat = q.height.toNat + 1
  orphans : ∀ ⦃h⦄, t.contains h = true → t.isOrphan h = false

def level (t : BlockTree) (h : Hash) : Nat := ((t.get? h).map fun b ↦ b.height.toNat).getD 0

theorem level_of_get? {b : Block} (hb : t.get? h = some b) : t.level h = b.height.toNat := by
  simp [level, hb]

theorem Relinked.level_eq (hr : t.Relinked t') (h : Hash) : t'.level h = t.level h := by
  cases hb : t.get? h with
  | none =>
    have hn : t'.get? h = none := by
      rw [← contains_eq_false_iff, hr.contains_eq, contains_eq_false_iff, hb]
    rw [level, level, hb, hn]
  | some b =>
    obtain ⟨b', hb', hu⟩ := hr.extends hb
    rw [level_of_get? hb, level_of_get? hb', (Block.unlinked_eq_iff.mp hu).2.1]

namespace Rooted

theorem contains_parent (hr : t.Rooted) (hp : t.IsParent p h) : t.contains p = true := by
  obtain ⟨b, hb, hp⟩ := hp
  obtain ⟨q, hq, -⟩ := hr.parented hb hp
  exact contains_iff.mpr ⟨q, hq⟩

theorem level_parent (hr : t.Rooted) (hp : t.IsParent p h) : t.level h = t.level p + 1 := by
  obtain ⟨b, hb, hp⟩ := hp
  obtain ⟨q, hq, hh⟩ := hr.parented hb hp
  rw [level_of_get? hb, level_of_get? hq, hh]

theorem eq_genesis_or_parent (hr : t.Rooted) (hh : t.contains h = true) :
    h = t.genesis ∨ ∃ p, t.IsParent p h := by
  obtain ⟨b, hb⟩ := contains_iff.mp hh
  cases hp : b.parent with
  | none => exact Or.inl ((hr.parentless hb).mp hp)
  | some p => exact Or.inr ⟨p, b, hb, hp⟩

/-- Where heights do not run out, they are the depths. -/
theorem graded (hr : t.Rooted) : t.Graded t.level where
  keyed := hr.keyed
  contains_parent _ _ hp := hr.contains_parent hp
  depth_parent _ _ hp := hr.level_parent hp
  depth_root h b hb hp := by
    obtain ⟨g, hgb, h0⟩ := hr.genesis
    rw [(hr.parentless hb).mp hp, level_of_get? hgb, h0]
    rfl
  height h b hb := by rw [level_of_get? hb, UInt64.ofNat_toNat]

theorem contains_ancestor (hr : t.Rooted) (ha : t.Ancestor a h) (hh : t.contains h = true) :
    t.contains a = true := hr.graded.contains_ancestor ha hh

theorem ancestor_of_extends (hr : t.Rooted) (he : t.Extends t') (hh : t.contains h = true)
    (ha : t'.Ancestor a h) : t.Ancestor a h := hr.graded.ancestor_of_extends he hh ha

theorem strictAncestor_of_extends (hr : t.Rooted) (he : t.Extends t') (hh : t.contains h = true)
    (ha : t'.StrictAncestor a h) : t.StrictAncestor a h := by
  obtain ⟨p, hap, hp⟩ := Relation.TransGen.tail'_iff.mp ha
  have hp := he.isParent_of_contains hh hp
  exact .tail' (hr.ancestor_of_extends he (hr.contains_parent hp) hap) hp

theorem level_le (hr : t.Rooted) (ha : t.Ancestor a h) : t.level a ≤ t.level h :=
  hr.graded.depth_le ha

theorem genesis_ancestor (hr : t.Rooted) (hh : t.contains h = true) : t.Ancestor t.genesis h := by
  induction hn : t.level h generalizing h with
  | zero =>
    rcases hr.eq_genesis_or_parent hh with rfl | ⟨p, hp⟩
    · exact .refl
    · have hl := hr.level_parent hp
      omega
  | succ n ih =>
    rcases hr.eq_genesis_or_parent hh with rfl | ⟨p, hp⟩
    · exact .refl
    · have hl := hr.level_parent hp
      exact .tail (ih (hr.contains_parent hp) (by omega)) hp

theorem relinked (hr : t.Rooted) (hs : t.Relinked t') : t'.Rooted where
  keyed := hr.keyed.relinked hs
  genesis := by
    obtain ⟨b, hb, hh⟩ := hr.genesis
    obtain ⟨b', hb', hu⟩ := hs.extends hb
    exact ⟨b', hs.genesis ▸ hb', (Block.unlinked_eq_iff.mp hu).2.1.trans hh⟩
  parentless := by
    intro h b hb
    obtain ⟨b', hb', hu⟩ := hs.symm.extends hb
    rw [hs.genesis, ← hr.parentless hb', (Block.unlinked_eq_iff.mp hu).2.2.2]
  parented := by
    intro h b p hb hp
    obtain ⟨b', hb', hu⟩ := hs.symm.extends hb
    obtain ⟨-, hh, -, hp'⟩ := Block.unlinked_eq_iff.mp hu
    obtain ⟨q, hq, hl⟩ := hr.parented hb' (hp'.trans hp)
    obtain ⟨q', hq', hv⟩ := hs.extends hq
    exact ⟨q', hq', by rw [← hh, hl, (Block.unlinked_eq_iff.mp hv).2.1]⟩
  orphans := by
    intro h hh
    rw [hs.contains_eq] at hh
    rw [isOrphan, hs.orphans]
    exact hr.orphans hh

theorem addOrphan (hr : t.Rooted) (h p : Hash) : (t.addOrphan h p).Rooted := by
  rw [BlockTree.addOrphan]
  split
  · exact hr
  next hh =>
    refine ⟨hr.keyed, hr.genesis, hr.parentless, hr.parented, fun x hx ↦ ?_⟩
    have hx : t.contains x = true := hx
    have hne : h ≠ x := fun he ↦ hh (he ▸ hx)
    have ho : t.isOrphan x = false := hr.orphans hx
    simpa [isOrphan, Std.ExtTreeMap.contains_insert, hne] using ho

theorem insert (hr : t.Rooted) (h p : Hash) (time : Int64)
    (hl : t.level p + 1 < UInt64.size) : (t.insert h p time).2.Rooted := by
  rcases insert_cases t h p time with ⟨e, he⟩ | ⟨q, t', hh, hq, he, hg, ho, hgen, -⟩
  · rw [he]
    exact hr
  rw [he]
  have hold {x : Hash} {b : Block} (hb : t.get? x = some b) : t'.get? x = some b := by
    rw [hg, if_neg (fun hx ↦ by simp [← hx, hh] at hb), hb]
  have hheight : (q.height + 1).toNat = q.height.toNat + 1 := by
    rw [level_of_get? hq] at hl
    rw [UInt64.toNat_add]
    exact Nat.mod_eq_of_lt hl
  obtain ⟨g, hgb, hg0⟩ := hr.genesis
  refine ⟨?_, ⟨g, hgen ▸ hold hgb, hg0⟩, ?_, ?_, ?_⟩
  · intro x b hb
    rcases eq_or_get?_of_insert hg hb with ⟨rfl, rfl⟩ | hb
    · rfl
    · exact hr.keyed hb
  · intro x b hb
    rw [hgen]
    rcases eq_or_get?_of_insert hg hb with ⟨rfl, rfl⟩ | hb
    · exact iff_of_false (fun hn ↦ by cases hn) (fun hx ↦ by simp [hx, hgb] at hh)
    · exact hr.parentless hb
  · intro x b p' hb hp
    rcases eq_or_get?_of_insert hg hb with ⟨rfl, rfl⟩ | hb
    · cases hp
      exact ⟨q, hold hq, hheight⟩
    · obtain ⟨q', hq', hl'⟩ := hr.parented hb hp
      exact ⟨q', hold hq', hl'⟩
  · intro x hx
    rw [isOrphan, ho, Std.ExtTreeMap.contains_erase]
    obtain ⟨b, hb⟩ := contains_iff.mp hx
    rcases eq_or_get?_of_insert hg hb with ⟨rfl, rfl⟩ | hb
    · simp
    · have hx : t.orphans.contains x = false := hr.orphans (contains_iff.mpr ⟨b, hb⟩)
      rw [hx, Bool.and_false]

end Rooted

theorem get?_withGenesis {g : Hash} {time : Int64} {b : Block} :
    (withGenesis g time).get? h = some b ↔ h = g ∧ b = ⟨g, 0, time, none, none⟩ := by
  simp only [withGenesis, get?, Std.ExtTreeMap.getElem?_insert, Std.compare_eq_iff_eq,
    Std.ExtTreeMap.getElem?_empty]
  split <;> simp_all [eq_comm]

theorem rooted_withGenesis (g : Hash) (time : Int64) : (withGenesis g time).Rooted := by
  refine ⟨?_, ⟨_, get?_withGenesis.mpr ⟨rfl, rfl⟩, rfl⟩, ?_, ?_, ?_⟩
  · intro h b hb
    obtain ⟨rfl, rfl⟩ := get?_withGenesis.mp hb
    rfl
  · intro h b hb
    obtain ⟨rfl, rfl⟩ := get?_withGenesis.mp hb
    exact iff_of_true rfl rfl
  · intro h b p hb hp
    obtain ⟨rfl, rfl⟩ := get?_withGenesis.mp hb
    cases hp
  · intro h _
    exact Std.ExtTreeMap.contains_empty

end ChainAnchor.BlockTree
