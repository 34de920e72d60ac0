import ChainAnchor.Proofs.BlockTree.History
import ChainAnchor.Proofs.BlockTree.Judgement
import ChainAnchor.Proofs.BlockTree.Size
import Mathlib.Control.Monad.Basic

namespace ChainAnchor.BlockTree

variable {t : BlockTree} {depth : Hash → Nat} {h : Hash} {height j k : UInt64} {b x y : Block}

structure OnWay (t : BlockTree) (h : Hash) (x : Block) : Prop where
  get? : t.get? x.hash = some x
  below : t.Ancestor x.hash h
  genesis : t.Ancestor t.genesis x.hash

theorem ancestor_of_unknown (hh : t.contains h = false) :
    t.ancestor h height = .error .unknownBlock := by
  rw [ancestor, contains_eq_false_iff.mp hh]

theorem ancestor_of_lt (hb : t.get? h = some b) (hlt : b.height < height) :
    t.ancestor h height = .error .heightAbove := by
  rw [ancestor, hb]
  exact if_pos hlt

theorem exists_le_of_ancestor (ha : t.ancestor h height = .ok x) :
    ∃ b, t.get? h = some b ∧ height ≤ b.height := by
  rw [ancestor] at ha
  split at ha
  · cases ha
  next b hb =>
    split at ha
    · cases ha
    next hle => exact ⟨b, hb, UInt64.not_lt.mp hle⟩

theorem eq_of_hash_eq (hx : t.get? x.hash = some x) (hy : t.get? y.hash = some y)
    (he : x.hash = y.hash) : x = y := by
  rw [he, hy] at hx
  exact (Option.some.inj hx).symm

namespace Graded

/-- A block that is not known, one that is too low, or one that the walk leads down from. -/
theorem ancestor_cases (hg : t.Graded depth) (h : Hash) (height : UInt64) :
    (t.contains h = false ∧ t.ancestor h height = .error .unknownBlock) ∨
    ∃ b, t.get? h = some b ∧
      ((b.height < height ∧ t.ancestor h height = .error .heightAbove) ∨
        (height ≤ b.height ∧ ∃ x, t.ancestor h height = .ok x)) := by
  cases hh : t.contains h with
  | false => exact Or.inl ⟨rfl, ancestor_of_unknown hh⟩
  | true =>
    obtain ⟨b, hb⟩ := contains_iff.mp hh
    refine Or.inr ⟨b, hb, ?_⟩
    by_cases hlt : b.height < height
    · exact Or.inl ⟨hlt, ancestor_of_lt hb hlt⟩
    · have hle := UInt64.not_lt.mp hlt
      obtain ⟨x, hx, -⟩ := hg.exists_ancestor_ok hb hle
      exact Or.inr ⟨hle, x, hx⟩

theorem ancestor_eq_unknown_iff (hg : t.Graded depth) :
    t.ancestor h height = .error .unknownBlock ↔ t.contains h = false := by
  refine ⟨fun ha ↦ ?_, ancestor_of_unknown⟩
  rcases hg.ancestor_cases h height with ⟨hh, -⟩ | ⟨b, -, ⟨-, hx⟩ | ⟨-, x, hx⟩⟩
  · exact hh
  · cases hx.symm.trans ha
  · cases hx.symm.trans ha

theorem ancestor_eq_above_iff (hg : t.Graded depth) :
    t.ancestor h height = .error .heightAbove ↔ ∃ b, t.get? h = some b ∧ b.height < height := by
  refine ⟨fun ha ↦ ?_, fun ⟨b, hb, hlt⟩ ↦ ancestor_of_lt hb hlt⟩
  rcases hg.ancestor_cases h height with ⟨-, hx⟩ | ⟨b, hb, ⟨hlt, -⟩ | ⟨-, x, hx⟩⟩
  · cases hx.symm.trans ha
  · exact ⟨b, hb, hlt⟩
  · cases hx.symm.trans ha

theorem ancestor_ne_corrupt (hg : t.Graded depth) : t.ancestor h height ≠ .error .corrupt := by
  intro ha
  rcases hg.ancestor_cases h height with ⟨-, hx⟩ | ⟨b, -, ⟨-, hx⟩ | ⟨-, x, hx⟩⟩ <;>
    cases hx.symm.trans ha

/-- A walk can be broken on the way, since the steps of its parts add up. -/
theorem exists_ancestor_ancestor (hg : t.Graded depth) (hle : j ≤ k)
    (hx : t.ancestor h k = .ok x) :
    ∃ y, t.ancestor x.hash j = .ok y ∧ t.ancestor h j = .ok y := by
  obtain ⟨b, hb, hkb⟩ := exists_le_of_ancestor hx
  obtain ⟨x', hx', hxk, hget, hxh, hdx⟩ := hg.exists_ancestor_ok hb hkb
  obtain rfl := Except.ok.inj (hx'.symm.trans hx)
  obtain ⟨y, hy, -, hyget, hyx, hdy⟩ := hg.exists_ancestor_ok hget (hxk ▸ hle)
  obtain ⟨z, hz, -, hzget, hzh, hdz⟩ := hg.exists_ancestor_ok hb (UInt64.le_trans hle hkb)
  have hjk := UInt64.le_iff_toNat_le.mp hle
  have hkb := UInt64.le_iff_toNat_le.mp hkb
  rw [hxk] at hdy
  have hyz := hg.eq_of_depth_eq (hyx.trans hxh) hzh (by omega)
  exact ⟨y, hy, eq_of_hash_eq hyget hzget hyz ▸ hz⟩

theorem ancestor_of_height (hg : t.Graded depth) (hb : t.get? h = some b)
    (hle : height ≤ b.height) (hx : t.ancestor h height = .ok x) (hy : t.get? y.hash = some y)
    (hyh : t.Ancestor y.hash h) (heq : y.height = height) : t.Ancestor y.hash x.hash := by
  obtain ⟨x', hx', hxh, hget, hxa, hd⟩ := hg.exists_ancestor_ok hb hle
  obtain rfl := Except.ok.inj (hx'.symm.trans hx)
  rcases hyh.total hxa with hyx | hxy
  · exact hyx
  -- a block that is not below `x` is less than a word above it, so the heights tell them apart
  have hlow := hg.depth_le hxy
  have hhigh := hg.depth_le hyh
  have hword := b.height.toNat_lt
  have hmod : depth y.hash % UInt64.size = depth x'.hash % UInt64.size := by
    have hwords := congrArg UInt64.toNat (heq.trans hxh.symm)
    rwa [hg.height hy, hg.height hget, UInt64.toNat_ofNat', UInt64.toNat_ofNat'] at hwords
  have hdepth : depth x'.hash = depth y.hash := by
    simp only [UInt64.size] at hmod
    omega
  rw [hg.eq_of_depth_eq hxa hyh hdepth]
  exact .refl

end Graded

/-- Where heights do not run out, a block has one ancestor at a height. -/
theorem Rooted.eq_of_height_eq (hr : t.Rooted) (hh : t.contains h = true)
    (hx : t.get? x.hash = some x) (hxh : t.Ancestor x.hash h) (hy : t.get? y.hash = some y)
    (hyh : t.Ancestor y.hash h) (heq : y.height = x.height) : y = x := by
  have hwalk := hr.ancestor_eq hy hh hyh
  rw [heq, hr.ancestor_eq hx hh hxh] at hwalk
  exact (Except.ok.inj hwalk).symm

/-- The walk fails for blocks that are not known and heights that are too high, and for no other
reason.  It finds the first block at the height on the way down, which is the only one as long as
the blocks are fewer than the words.  What it finds it finds from anywhere above. -/
theorem ancestor_exact (hr : t.Reachable) (h : Hash) :
    (∀ height,
      (t.ancestor h height = .error .unknownBlock ↔ t.contains h = false) ∧
      (t.ancestor h height = .error .heightAbove ↔ ∃ b, t.get? h = some b ∧ b.height < height) ∧
      t.ancestor h height ≠ .error .corrupt ∧
      ∀ b, t.get? h = some b → height ≤ b.height →
        ∃ x, t.ancestor h height = .ok x ∧ t.OnWay h x ∧ x.height = height ∧
          (∀ y, t.OnWay h y → y.height = height → t.Ancestor y.hash x.hash) ∧
          (t.size < UInt64.size → ∀ y, t.OnWay h y → y.height = height → y = x)) ∧
    (∀ j k x, j ≤ k → t.ancestor h k = .ok x →
      ∃ y, t.ancestor x.hash j = .ok y ∧ t.ancestor h j = .ok y) ∧
    (∀ h' j k x, j ≤ k → t.ancestor h k = .ok x → t.ancestor h' k = .ok x →
      ∃ y, t.ancestor h j = .ok y ∧ t.ancestor h' j = .ok y) := by
  obtain ⟨depth, hl⟩ := hr.linked
  have hg := hl.toGraded
  refine ⟨fun height ↦ ⟨hg.ancestor_eq_unknown_iff, hg.ancestor_eq_above_iff,
    hg.ancestor_ne_corrupt, fun b hb hle ↦ ?_⟩, fun j k x hle hx ↦ ?_, fun h' j k x hle hx hx' ↦ ?_⟩
  · have hh : t.contains h = true := contains_iff.mpr ⟨b, hb⟩
    obtain ⟨x, hx, hheight, hget, ha, -⟩ := hg.exists_ancestor_ok hb hle
    refine ⟨x, hx, ⟨hget, ha, hr.genesis_ancestor (hg.contains_ancestor ha hh)⟩, hheight,
      fun y hy heq ↦ hg.ancestor_of_height hb hle hx hy.get? hy.below heq,
      fun hsize y hy heq ↦ ?_⟩
    exact (hr.sound hsize).toRooted.eq_of_height_eq hh hget ha hy.get? hy.below
      (heq.trans hheight.symm)
  · exact hg.exists_ancestor_ancestor hle hx
  · obtain ⟨y, hxy, hy⟩ := hg.exists_ancestor_ancestor hle hx
    obtain ⟨y', hxy', hy'⟩ := hg.exists_ancestor_ancestor hle hx'
    obtain rfl := Except.ok.inj (hxy.symm.trans hxy')
    exact ⟨y, hy, hy'⟩

def twigs : BlockTree :=
  let h (n : Nat) : Hash := Digest.ofNatLE n
  (withGenesis (h 0) 0).run [.insert (h 1) (h 0) 30, .insert (h 2) (h 1) 60,
    .insert (h 3) (h 2) 90, .insert (h 4) (h 1) 70, .insert (h 5) (h 4) 80, .setBest (h 5)]

theorem ancestor_exact_twigs :
    let h (n : Nat) : Hash := Digest.ofNatLE n
    let first : Block := ⟨h 1, 1, 30, some (h 0), some (h 4)⟩
    let second : Block := ⟨h 2, 2, 60, some (h 1), none⟩
    twigs.Reachable ∧ twigs.size < UInt64.size ∧
      (twigs.get? (h 3) = some ⟨h 3, 3, 90, some (h 2), none⟩ ∧
        ∃ x, twigs.ancestor (h 3) 2 = .ok x ∧ twigs.OnWay (h 3) x ∧
          ∀ y, twigs.OnWay (h 3) y → y.height = 2 → y = x) ∧
      (twigs.ancestor (h 3) 2 = .ok second ∧
        ∃ y, twigs.ancestor (h 2) 1 = .ok y ∧ twigs.ancestor (h 3) 1 = .ok y) ∧
      (twigs.ancestor (h 3) 1 = .ok first ∧ twigs.ancestor (h 5) 1 = .ok first ∧
        ∃ y, twigs.ancestor (h 3) 0 = .ok y ∧ twigs.ancestor (h 5) 0 = .ok y) := by
  intro h first second
  have hr : twigs.Reachable := ⟨_, _, _, rfl⟩
  have hsize : twigs.size < UInt64.size := by decide +kernel
  have hb : twigs.get? (h 3) = some ⟨h 3, 3, 90, some (h 2), none⟩ := by decide +kernel
  have hsecond : twigs.ancestor (h 3) 2 = .ok second := by decide +kernel
  have hfirst : twigs.ancestor (h 3) 1 = .ok first := by decide +kernel
  have hfirst' : twigs.ancestor (h 5) 1 = .ok first := by decide +kernel
  obtain ⟨hwalk, hbreak, hshare⟩ := ancestor_exact hr (h 3)
  obtain ⟨x, hx, hway, -, -, hunique⟩ := (hwalk 2).2.2.2 _ hb (by decide)
  exact ⟨hr, hsize, ⟨hb, x, hx, hway, hunique hsize⟩,
    ⟨hsecond, hbreak 1 2 second (by decide) hsecond⟩,
    ⟨hfirst, hfirst', hshare (h 5) 0 1 first (by decide) hfirst hfirst'⟩⟩

end ChainAnchor.BlockTree
