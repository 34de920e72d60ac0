import ChainAnchor.Proofs.BlockTree.Ancestry

namespace ChainAnchor.BlockTree

variable {t t' : BlockTree} {depth : Hash → Nat} {a c h p x : Hash}

/-- The depths of blocks go up by one from parent to child, and heights are what a word holds of
them. -/
structure Graded (t : BlockTree) (depth : Hash → Nat) : Prop where
  keyed : t.Keyed
  contains_parent : ∀ ⦃p h⦄, t.IsParent p h → t.contains p = true
  depth_parent : ∀ ⦃p h⦄, t.IsParent p h → depth h = depth p + 1
  depth_root : ∀ ⦃h b⦄, t.get? h = some b → b.parent = none → depth h = 0
  height : ∀ ⦃h b⦄, t.get? h = some b → b.height = UInt64.ofNat (depth h)

namespace Graded

theorem contains_ancestor (hg : t.Graded depth) (ha : t.Ancestor a h)
    (hh : t.contains h = true) : t.contains a = true := by
  induction ha with
  | refl => exact hh
  | tail _ hp ih => exact ih (hg.contains_parent hp)

theorem ancestor_of_extends (hg : t.Graded depth) (he : t.Extends t') (hh : t.contains h = true)
    (ha : t'.Ancestor a h) : t.Ancestor a h := by
  induction ha with
  | refl => exact .refl
  | tail _ hp ih =>
    have hp := he.isParent_of_contains hh hp
    exact .tail (ih (hg.contains_parent hp)) hp

theorem depth_le (hg : t.Graded depth) (ha : t.Ancestor a h) : depth a ≤ depth h := by
  induction ha with
  | refl => exact Nat.le_refl _
  | tail _ hp ih =>
    have hd := hg.depth_parent hp
    omega

/-- Ancestry has no cycles. -/
theorem not_ancestor_of_isParent (hg : t.Graded depth) (hp : t.IsParent x c) :
    ¬ t.Ancestor c x := by
  intro hc
  have hd := hg.depth_parent hp
  have hle := hg.depth_le hc
  omega

theorem eq_zero_or_parent (hg : t.Graded depth) (hh : t.contains h = true) :
    depth h = 0 ∨ ∃ p, t.IsParent p h := by
  obtain ⟨b, hb⟩ := contains_iff.mp hh
  cases hp : b.parent with
  | none => exact Or.inl (hg.depth_root hb hp)
  | some p => exact Or.inr ⟨p, b, hb, hp⟩

theorem relinked (hg : t.Graded depth) (hr : t.Relinked t') : t'.Graded depth where
  keyed := hg.keyed.relinked hr
  contains_parent p h hp := by
    rw [hr.isParent_eq] at hp
    rw [hr.contains_eq]
    exact hg.contains_parent hp
  depth_parent p h hp := hg.depth_parent (hr.isParent_eq ▸ hp)
  depth_root h b hb hp := by
    obtain ⟨b', hb', hu⟩ := hr.symm.extends hb
    exact hg.depth_root hb' ((Block.unlinked_eq_iff.mp hu).2.2.2.trans hp)
  height h b hb := by
    obtain ⟨b', hb', hu⟩ := hr.symm.extends hb
    exact (Block.unlinked_eq_iff.mp hu).2.1.symm.trans (hg.height hb')

theorem addOrphan (hg : t.Graded depth) (h p : Hash) : (t.addOrphan h p).Graded depth := by
  rw [BlockTree.addOrphan]
  split
  · exact hg
  · exact ⟨hg.keyed, hg.contains_parent, hg.depth_parent, hg.depth_root, hg.height⟩

theorem insert (hg : t.Graded depth) (h p : Hash) (time : Int64) :
    ∃ depth', (t.insert h p time).2.Graded depth' ∧
      ∀ x, t.contains x = true → depth' x = depth x := by
  rcases insert_cases t h p time with ⟨e, he⟩ | ⟨q, t', hh, hq, he, hget, -⟩
  · rw [he]
    exact ⟨depth, hg, fun _ _ ↦ rfl⟩
  rw [he]
  let depth' (x : Hash) : Nat := if h = x then depth p + 1 else depth x
  have hd {x : Hash} (hx : t.contains x = true) : depth' x = depth x := by
    refine if_neg fun he ↦ ?_
    rw [← he, contains_eq_false_iff.mpr hh] at hx
    cases hx
  have hpc : t.contains p = true := contains_iff.mpr ⟨q, hq⟩
  have hext : t.Extends t' := by
    have hext := insert_extends t h p time
    rwa [he] at hext
  refine ⟨depth', ⟨fun x b hb ↦ ?_, fun x y hxy ↦ ?_, fun x y hxy ↦ ?_, fun x b hb hp ↦ ?_,
    fun x b hb ↦ ?_⟩, fun x hx ↦ hd hx⟩
  · rcases eq_or_get?_of_insert hget hb with ⟨rfl, rfl⟩ | hb
    · rfl
    · exact hg.keyed hb
  · obtain ⟨b, hb, hx⟩ := hxy
    rcases eq_or_get?_of_insert hget hb with ⟨rfl, rfl⟩ | hb
    · exact hext.contains (Option.some.inj hx ▸ hpc)
    · exact hext.contains (hg.contains_parent ⟨b, hb, hx⟩)
  · obtain ⟨b, hb, hx⟩ := hxy
    rcases eq_or_get?_of_insert hget hb with ⟨rfl, rfl⟩ | hb
    · obtain rfl := Option.some.inj hx
      rw [hd hpc]
      exact if_pos rfl
    · have hxy : t.IsParent x y := ⟨b, hb, hx⟩
      rw [hd hxy.contains_child, hd (hg.contains_parent hxy), hg.depth_parent hxy]
  · rcases eq_or_get?_of_insert hget hb with ⟨rfl, rfl⟩ | hb
    · cases hp
    · rw [hd (contains_iff.mpr ⟨b, hb⟩), hg.depth_root hb hp]
  · rcases eq_or_get?_of_insert hget hb with ⟨rfl, rfl⟩ | hb
    · change q.height + 1 = UInt64.ofNat (if x = x then depth p + 1 else depth x)
      rw [if_pos rfl, UInt64.ofNat_add, ← hg.height hq]
      rfl
    · rw [hd (contains_iff.mpr ⟨b, hb⟩), hg.height hb]

theorem depth_lt (hg : t.Graded depth) (ha : t.StrictAncestor a h) : depth a < depth h := by
  obtain ⟨q, haq, hq⟩ := Relation.TransGen.tail'_iff.mp ha
  have hle := hg.depth_le haq
  have hd := hg.depth_parent hq
  omega

/-- On the way down from a block there is one block at a depth. -/
theorem eq_of_depth_eq (hg : t.Graded depth) (ha : t.Ancestor a h) (hc : t.Ancestor c h)
    (hd : depth a = depth c) : a = c := by
  by_cases hne : a = c
  · exact hne
  rcases ha.total hc with hac | hca
  · have hlt := hg.depth_lt (.of_ne hac hne)
    omega
  · have hlt := hg.depth_lt (.of_ne hca (Ne.symm hne))
    omega

theorem height_parent (hg : t.Graded depth) (hp : t.IsParent p h) {b q : Block}
    (hb : t.get? h = some b) (hq : t.get? p = some q) : b.height = q.height + 1 := by
  rw [hg.height hb, hg.height hq, hg.depth_parent hp, UInt64.ofNat_add]
  rfl

theorem exists_descend (hg : t.Graded depth) {height : UInt64} {steps : Nat} {b : Block}
    (hb : t.get? h = some b) (hs : b.height.toNat = height.toNat + steps) :
    ∃ x, t.descend height steps b = .ok x ∧ x.height = height ∧ depth x.hash + steps = depth h := by
  induction steps generalizing h b with
  | zero => exact ⟨b, rfl, UInt64.toNat_inj.mp hs, by rw [hg.keyed hb, Nat.add_zero]⟩
  | succ steps ih =>
    have hlt : height < b.height := UInt64.lt_iff_toNat_lt.mpr (by omega)
    -- a block that is not at height zero has a parent, whose height has not wrapped around
    rcases hg.eq_zero_or_parent (contains_iff.mpr ⟨b, hb⟩) with h0 | ⟨p, hp⟩
    · have hzero : b.height.toNat = 0 := by rw [hg.height hb, h0]; rfl
      omega
    obtain ⟨q, hq⟩ := contains_iff.mp (hg.contains_parent hp)
    have hbq := hg.height_parent hp hb hq
    have hqs : q.height.toNat = height.toNat + steps := by
      rw [hbq, UInt64.toNat_add] at hs
      have h1 : (1 : UInt64).toNat = 1 := rfl
      have hword := q.height.toNat_lt
      omega
    obtain ⟨x, hx, hheight, hd⟩ := ih hq hqs
    have hdp := hg.depth_parent hp
    obtain ⟨b', hb', hparent⟩ := hp
    obtain rfl := Option.some.inj (hb'.symm.trans hb)
    refine ⟨x, ?_, hheight, by omega⟩
    rw [descend, if_pos hlt]
    simp only [parentOf, parent?, hparent, hq, Option.bind_some, hx]

theorem exists_ancestor_ok (hg : t.Graded depth) {b : Block} (hb : t.get? h = some b)
    {height : UInt64} (hle : height ≤ b.height) :
    ∃ x, t.ancestor h height = .ok x ∧ x.height = height ∧ t.get? x.hash = some x ∧
      t.Ancestor x.hash h ∧ depth x.hash + (b.height.toNat - height.toNat) = depth h := by
  have hle' := UInt64.le_iff_toNat_le.mp hle
  have hs : b.height.toNat = height.toNat + (b.height.toNat - height.toNat) := by omega
  obtain ⟨x, hx, hheight, hd⟩ := hg.exists_descend hb hs
  obtain ⟨hget, ha⟩ := descend_ancestor hg.keyed hb hx
  refine ⟨x, ?_, hheight, hget, ha, hd⟩
  rw [ancestor, hb]
  exact (if_neg (UInt64.not_lt.mpr hle)).trans hx

theorem exists_ancestor (hg : t.Graded depth) {b : Block} (hb : t.get? h = some b)
    {height : UInt64} (hle : height ≤ b.height) :
    ∃ a c, t.Ancestor a h ∧ t.get? a = some c ∧ c.height = height := by
  obtain ⟨x, -, hheight, hget, ha, -⟩ := hg.exists_ancestor_ok hb hle
  exact ⟨x.hash, x, ha, hget, hheight⟩

end Graded

end ChainAnchor.BlockTree
