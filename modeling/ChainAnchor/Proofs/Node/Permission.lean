import ChainAnchor.Proofs.Node.Validation

namespace ChainAnchor.Anchor

open BlockTree

variable {a : Anchor} {t : BlockTree} {h p : Hash}

theorem permits_of_missing (he : a.network.enforces = true)
    (hm : t.contains a.current = false ∨ t.contains p = false) :
    a.permits t h p false = false := by
  rw [permits, he]
  simp only [Bool.not_true, Bool.false_eq_true, if_false]
  cases hp : t.get? p with
  | none => rfl
  | some q =>
    have hpc : t.contains p = true := contains_iff.mpr ⟨q, hp⟩
    rcases hm with hc | hp'
    · rw [contains_eq_false_iff.mp hc]
    · rw [hpc] at hp'
      cases hp'

/-- The three ways to be permitted: below the checkpoint in the tree, in its place, or known already
at a lower height. -/
theorem permits_iff (hr : t.Rooted) (hlow : t.level p + 1 < UInt64.size)
    (he : a.network.enforces = true) (hc : t.contains a.current = true)
    (hp : t.contains p = true) :
    a.permits t h p false = true ↔
      t.Ancestor a.current p ∨ (t.level p + 1 = t.level a.current ∧ h = a.current) ∨
        (t.level p + 1 < t.level a.current ∧ t.contains h = true) := by
  obtain ⟨c, hcur⟩ := contains_iff.mp hc
  obtain ⟨q, hq⟩ := contains_iff.mp hp
  have hlc := level_of_get? hcur
  have hlq := level_of_get? hq
  have hheight : (q.height + 1).toNat = t.level p + 1 := by
    rw [UInt64.toNat_add, ← hlq]
    exact Nat.mod_eq_of_lt hlow
  have hanc (hlt : t.level p < t.level a.current) : ¬t.Ancestor a.current p := fun ha ↦
    Nat.not_le.mpr hlt (hr.level_le ha)
  rw [permits, he]
  simp only [Bool.not_true, Bool.false_eq_true, if_false, hcur, hq, UInt64.lt_iff_toNat_lt,
    ← UInt64.toNat_inj, hheight, ← hlc]
  -- the height that the block would have, against that of the checkpoint
  rcases Nat.lt_trichotomy (t.level a.current) (t.level p + 1) with hlt | heq | hgt
  · obtain ⟨y, hy, hiff⟩ := hr.exists_ancestor_eq hcur hq (UInt64.le_iff_toNat_le.mpr (by omega))
    have hne : t.level p + 1 ≠ t.level a.current := by omega
    have hnlt : ¬t.level p + 1 < t.level a.current := by omega
    simp only [if_pos hlt, hy, decide_eq_true_iff, hiff, hne, hnlt, false_and, or_false]
  · have hnot := hanc (by omega)
    have hnlt : ¬t.level p + 1 < t.level p + 1 := Nat.lt_irrefl _
    simp only [heq, hnlt, if_false, if_true, decide_eq_true_iff, hnot, true_and, false_and,
      false_or, or_false]
  · have hnot := hanc (by omega)
    have hnlt : ¬t.level a.current < t.level p + 1 := by omega
    have hne : t.level p + 1 ≠ t.level a.current := by omega
    simp only [hnlt, hne, hgt, if_false, hnot, true_and, false_and, false_or]

/-- The permission is exact.  A new block is permitted exactly if its parent is the checkpoint or
descends from it, and a known one exactly if it is the checkpoint, descends from it or is lower;
where the parent or the checkpoint is not known, nothing is.  Heights are words, so the blocks must
be fewer than the words. -/
theorem permits_exact (a : Anchor) (t : BlockTree) (h p : Hash) (hr : t.Reachable)
    (hsize : t.size < UInt64.size) (he : a.network.enforces = true) :
    (t.contains a.current = false ∨ t.contains p = false → a.permits t h p false = false) ∧
    (t.contains a.current = true → t.contains p = true → t.contains h = false →
      (a.permits t h p false = true ↔ t.Ancestor a.current p)) ∧
    (t.contains a.current = true → t.IsParent p h →
      (a.permits t h p false = true ↔
        t.Ancestor a.current h ∨ t.level h < t.level a.current)) := by
  have hrooted := (hr.sound hsize).toRooted
  have hlow : t.level p + 1 < UInt64.size := by
    have hp := hr.shallow p
    omega
  refine ⟨permits_of_missing he, fun hc hp hh ↦ ?_, fun hc hp ↦ ?_⟩
  · rw [permits_iff hrooted hlow he hc hp, hh]
    refine ⟨fun h' ↦ ?_, Or.inl⟩
    rcases h' with ha | ⟨-, rfl⟩ | ⟨-, hf⟩
    · exact ha
    · rw [hc] at hh
      cases hh
    · cases hf
  · have hl := hrooted.level_parent hp
    rw [permits_iff hrooted hlow he hc (hrooted.contains_parent hp), ← hl]
    constructor
    · rintro (ha | ⟨-, rfl⟩ | ⟨hlt, -⟩)
      · exact Or.inl (.tail ha hp)
      · exact Or.inl .refl
      · exact Or.inr hlt
    · rintro (ha | hlt)
      · rcases ha.eq_or_parent hp with heq | ha
        · exact Or.inr (Or.inl ⟨by rw [heq], heq.symm⟩)
        · exact Or.inl ha
      · exact Or.inr (Or.inr ⟨hlt, hp.contains_child⟩)

theorem permits_exact_forked :
    let a := Node.forked.anchor
    let t := Node.forked.tree
    let h (n : Nat) : Hash := Digest.ofNatLE n
    t.Reachable ∧ t.size < UInt64.size ∧ a.network.enforces = true ∧
      (t.contains a.current = true ∧ t.contains (h 3) = true ∧ t.contains (h 4) = false ∧
        (a.permits t (h 4) (h 3) false = true ↔ t.Ancestor a.current (h 3))) ∧
      (t.IsParent (h 0) (h 3) ∧
        (a.permits t (h 3) (h 0) false = true ↔
          t.Ancestor a.current (h 3) ∨ t.level (h 3) < t.level a.current)) ∧
      (t.contains (h 4) = false ∧ a.permits t (h 5) (h 4) false = false) ∧
      a.permits t (h 4) (h 2) false = true ∧ a.permits t (h 4) (h 3) false = false := by
  intro a t h
  have he : a.network.enforces = true := rfl
  have hc : t.contains a.current = true := by decide +kernel
  have hp : t.contains (h 3) = true := by decide +kernel
  have hh : t.contains (h 4) = false := by decide +kernel
  have hpar : t.IsParent (h 0) (h 3) := by decide +kernel
  obtain ⟨-, hnew, -⟩ := permits_exact a t (h 4) (h 3) Node.reachable_forked Node.size_forked he
  obtain ⟨-, -, hknown⟩ := permits_exact a t (h 3) (h 0) Node.reachable_forked Node.size_forked he
  obtain ⟨hmissing, -⟩ := permits_exact a t (h 5) (h 4) Node.reachable_forked Node.size_forked he
  exact ⟨Node.reachable_forked, Node.size_forked, he, ⟨hc, hp, hh, hnew hc hp hh⟩,
    ⟨hpar, hknown hc hpar⟩, ⟨hh, hmissing (Or.inr hh)⟩, by decide +kernel, by decide +kernel⟩

end ChainAnchor.Anchor
