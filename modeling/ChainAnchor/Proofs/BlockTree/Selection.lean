import ChainAnchor.Anchor
import ChainAnchor.Proofs.BlockTree.History

namespace ChainAnchor

namespace BlockTree

variable {t t' : BlockTree} {depth : Hash → Nat} {tip b p r x : Block} {a c h : Hash}

structure Behind (tip b : Block) : Prop where
  time : b.time + Rules.checkpointMaxSpan ≤ tip.time
  height : b.height + Rules.checkpointSpan ≤ tip.height

theorem isClose_eq_false_iff : isClose tip b = false ↔ Behind tip b := by
  rw [isClose, Bool.or_eq_false_iff, decide_eq_false_iff_not, decide_eq_false_iff_not,
    Int64.not_lt, UInt64.not_lt]
  exact ⟨fun ⟨ht, hh⟩ ↦ ⟨ht, hh⟩, fun hb ↦ ⟨hb.time, hb.height⟩⟩

def Lags (t : BlockTree) (h : Hash) : Prop := ∃ b, t.get? h = some b ∧ Behind t.bestBlock b

/-- Where the walk down from a block ends, however many steps it takes. -/
inductive Halts (t : BlockTree) (tip : Block) : Block → Block → Prop
  | root {b : Block} : t.parent? b = none → Halts t tip b b
  | behind {b : Block} : isClose tip b = false → Halts t tip b b
  | close {b p r : Block} : t.parent? b = some p → isClose tip b = true → Halts t tip p r →
      Halts t tip b r

theorem isParent_of_parent? (hb : t.get? h = some b) (hp : t.parent? b = some p) :
    ∃ q, t.IsParent q h ∧ t.get? q = some p := by
  obtain ⟨q, hq, hp⟩ := Option.bind_eq_some_iff.mp hp
  exact ⟨q, ⟨b, hb, hq⟩, hp⟩

theorem Graded.parent_eq_none (hg : t.Graded depth) (hb : t.get? h = some b)
    (hp : t.parent? b = none) : b.parent = none := by
  cases hq : b.parent with
  | none => rfl
  | some q =>
    obtain ⟨p, hp'⟩ := contains_iff.mp (hg.contains_parent ⟨b, hb, hq⟩)
    rw [parent?, hq, Option.bind_some, hp'] at hp
    cases hp

theorem Graded.parent?_eq_none (hg : t.Graded depth) (hb : t.get? h = some b) (hd : depth h = 0) :
    t.parent? b = none := by
  cases hp : t.parent? b with
  | none => rfl
  | some p =>
    obtain ⟨q, hq, -⟩ := isParent_of_parent? hb hp
    have hdq := hg.depth_parent hq
    omega

theorem Graded.halts_firstLagging (hg : t.Graded depth) (tip : Block) {steps : Nat}
    (hb : t.get? h = some b) (hs : depth h ≤ steps) :
    t.Halts tip b (t.firstLagging tip steps b) := by
  induction steps generalizing h b with
  | zero => exact .root (hg.parent?_eq_none hb (Nat.le_zero.mp hs))
  | succ steps ih =>
    rw [firstLagging]
    cases hp : t.parent? b with
    | none => exact .root hp
    | some p =>
      obtain ⟨q, hq, hqp⟩ := isParent_of_parent? hb hp
      have hd := hg.depth_parent hq
      cases hc : isClose tip b with
      | false => exact .behind hc
      | true => exact .close hp hc (ih hqp (by omega))

namespace Halts

theorem ancestor (he : t.Halts tip b r) (hk : t.Keyed) (hb : t.get? h = some b) :
    t.get? r.hash = some r ∧ t.Ancestor r.hash h := by
  induction he generalizing h with
  | root => rw [hk hb]; exact ⟨hb, .refl⟩
  | behind => rw [hk hb]; exact ⟨hb, .refl⟩
  | close hp hc he ih =>
    obtain ⟨q, hq, hqp⟩ := isParent_of_parent? hb hp
    obtain ⟨hr, ha⟩ := ih hqp
    exact ⟨hr, .tail ha hq⟩

theorem stops (he : t.Halts tip b r) : t.parent? r = none ∨ Behind tip r := by
  induction he with
  | root hp => exact Or.inl hp
  | behind hc => exact Or.inr (isClose_eq_false_iff.mp hc)
  | close _ _ _ ih => exact ih

/-- The walk passes by no block that is behind the tip. -/
theorem ancestor_of_behind (he : t.Halts tip b r) (hk : t.Keyed) (hb : t.get? h = some b)
    (ha : t.Ancestor a h) (hx : t.get? a = some x) (hbehind : Behind tip x) :
    t.Ancestor a r.hash := by
  induction he generalizing h with
  | root => rw [hk hb]; exact ha
  | behind => rw [hk hb]; exact ha
  | close hp hc he ih =>
    obtain ⟨q, hq, hqp⟩ := isParent_of_parent? hb hp
    rcases ha.eq_or_parent hq with rfl | ha
    · obtain rfl := Option.some.inj (hx.symm.trans hb)
      rw [isClose_eq_false_iff.mpr hbehind] at hc
      cases hc
    · exact ih hqp ha

end Halts

namespace Linked

theorem get?_best (hl : t.Linked depth) : t.get? t.best = some t.bestBlock := by
  obtain ⟨b, hb⟩ := contains_iff.mp hl.best
  rw [bestBlock, hb, Option.getD_some]

theorem halts_selected (hl : t.Linked depth) :
    ∃ r, t.Halts t.bestBlock t.bestBlock r ∧ t.selected = r.hash :=
  ⟨_, hl.halts_firstLagging t.bestBlock hl.get?_best (Nat.le_of_eq hl.depth_best), rfl⟩

theorem selected_ancestor (hl : t.Linked depth) : t.Ancestor t.selected t.best := by
  obtain ⟨r, he, hs⟩ := hl.halts_selected
  rw [hs]
  exact (he.ancestor hl.keyed hl.get?_best).2

theorem ancestor_selected_of_lags (hl : t.Linked depth) (ha : t.Ancestor a t.best)
    (hlag : t.Lags a) : t.Ancestor a t.selected := by
  obtain ⟨x, hx, hbehind⟩ := hlag
  obtain ⟨r, he, hs⟩ := hl.halts_selected
  rw [hs]
  exact he.ancestor_of_behind hl.keyed hl.get?_best ha hx hbehind

/-- On the main chain heights do not run out, so they are the depths. -/
theorem level_eq (hl : t.Linked depth) (ha : t.Ancestor a t.best) : t.level a = depth a := by
  obtain ⟨x, hx⟩ := contains_iff.mp (hl.contains_ancestor ha hl.best)
  have hle := hl.depth_le ha
  rw [level_of_get? hx, hl.height hx, UInt64.toNat_ofNat',
    Nat.mod_eq_of_lt (Nat.lt_of_le_of_lt hle hl.low)]

end Linked

theorem Reachable.lags_or_eq_genesis (hr : t.Reachable) :
    t.Lags t.selected ∨ t.selected = t.genesis := by
  obtain ⟨depth, hl⟩ := hr.linked
  obtain ⟨r, he, hs⟩ := hl.halts_selected
  obtain ⟨hget, -⟩ := he.ancestor hl.keyed hl.get?_best
  rw [hs]
  rcases he.stops with hp | hbehind
  · exact Or.inr (hr.eq_genesis hget (hl.parent_eq_none hget hp))
  · exact Or.inl ⟨r, hget, hbehind⟩

/-- The walk of the selection ends, and at the highest block of the main chain that lags, if one
above the genesis block does, and else at the genesis block. -/
theorem selected_highest (hr : t.Reachable) :
    (∃ r, t.Halts t.bestBlock t.bestBlock r ∧ r.hash = t.selected) ∧
    t.Ancestor t.selected t.best ∧
    ((∃ x, x ≠ t.genesis ∧ t.Ancestor x t.best ∧ t.Lags x) →
      t.Lags t.selected ∧
        ∀ x, t.Ancestor x t.best → t.Lags x → x ≠ t.selected →
          t.level x < t.level t.selected) ∧
    ((∀ x, x ≠ t.genesis → t.Ancestor x t.best → ¬t.Lags x) → t.selected = t.genesis) := by
  obtain ⟨depth, hl⟩ := hr.linked
  obtain ⟨r, he, hs⟩ := hl.halts_selected
  have hsel := hl.selected_ancestor
  have hbelow (x : Hash) (ha : t.Ancestor x t.best) (hlag : t.Lags x) (hne : x ≠ t.selected) :
      depth x < depth t.selected :=
    hl.depth_lt (.of_ne (hl.ancestor_selected_of_lags ha hlag) hne)
  refine ⟨⟨r, he, hs.symm⟩, hsel, ?_, ?_⟩
  · rintro ⟨x, hx, hax, hlag⟩
    refine ⟨?_, fun y hay hy hne ↦ ?_⟩
    · rcases hr.lags_or_eq_genesis with hlags | heq
      · exact hlags
      -- the genesis block has nothing below it, and the block that lags is not above it
      · have hlt := hbelow x hax hlag (heq ▸ hx)
        have hle := hl.depth_le (hr.genesis_ancestor (hl.contains_ancestor hax hl.best))
        rw [heq] at hlt
        omega
    · rw [hl.level_eq hay, hl.level_eq hsel]
      exact hbelow y hay hy hne
  · intro hnone
    rcases hr.lags_or_eq_genesis with hlags | heq
    · by_cases hg : t.selected = t.genesis
      · exact hg
      · exact absurd hlags (hnone _ hg hsel)
    · exact heq

/-- A chain of blocks half a minute apart, but for two low blocks with times ahead of the others;
the last block is not on the main chain yet. -/
def tall : BlockTree :=
  let h (n : Nat) : Hash := Digest.ofNatLE n
  (withGenesis (h 0) 0).run <|
    (List.range 204).map (fun n ↦ .insert (h (n + 1)) (h n)
      (if n = 0 ∨ n = 2 then 9000 else 30 * Int64.ofNat (n + 1))) ++ [.setBest (h 203)]

theorem reachable_tall : tall.Reachable := ⟨_, _, _, rfl⟩

theorem tall_eq :
    let h (n : Nat) : Hash := Digest.ofNatLE n
    let t := (tall.setBest (h 204)).2
    let a := Anchor.new { (default : Network) with enforces := true } .strict
    tall.best = h 203 ∧ tall.genesis = h 0 ∧ tall.selected = h 2 ∧ tall.IsParent (h 203) (h 204) ∧
      tall.get? (h 204) = some ⟨h 204, 204, 6120, some (h 203), none⟩ ∧
      tall.bestHeight = 203 ∧ tall.bestBlock.time = 6090 ∧ t.selected = h 4 ∧
      a.permits tall (h 5) (h 2) true = true ∧ a.permits t (h 5) (h 2) true = false ∧
      tall.size < UInt64.size ∧ tall.isOnMain (h 0) = true := by
  decide +kernel

theorem selected_highest_tall :
    tall.Reachable ∧ (∃ x, x ≠ tall.genesis ∧ tall.Ancestor x tall.best ∧ tall.Lags x) ∧
      tall.Lags (Digest.ofNatLE 2) ∧
      ∀ x, tall.Ancestor x tall.best → tall.Lags x → x ≠ Digest.ofNatLE 2 →
        tall.level x < tall.level (Digest.ofNatLE 2) := by
  obtain ⟨-, hgenesis, hsel, -⟩ := tall_eq
  obtain ⟨-, hanc, hhighest, -⟩ := selected_highest reachable_tall
  have hne : tall.selected ≠ tall.genesis := by
    rw [hsel, hgenesis]
    decide
  have hlag := reachable_tall.lags_or_eq_genesis.resolve_right hne
  have hex : ∃ x, x ≠ tall.genesis ∧ tall.Ancestor x tall.best ∧ tall.Lags x :=
    ⟨tall.selected, hne, hanc, hlag⟩
  have hmax := hhighest hex
  rw [hsel] at hmax
  exact ⟨reachable_tall, hex, hmax⟩

theorem Relinked.lags (hr : t.Relinked t') (ht : t.bestBlock.time ≤ t'.bestBlock.time)
    (hh : t.bestHeight ≤ t'.bestHeight) (hlag : t.Lags a) : t'.Lags a := by
  obtain ⟨x, hx, hb⟩ := hlag
  obtain ⟨x', hx', hu⟩ := hr.extends hx
  obtain ⟨-, hheight, htime, -⟩ := Block.unlinked_eq_iff.mp hu
  refine ⟨x', hx', ?_, ?_⟩
  · rw [htime]
    exact Int64.le_trans hb.time ht
  · rw [hheight]
    exact UInt64.le_trans hb.height hh

theorem Linked.bestHeight_le (hl : t.Linked depth) (hl' : t'.Linked depth)
    (hd : t.Ancestor t.best t'.best) : t.bestHeight ≤ t'.bestHeight := by
  rw [UInt64.le_iff_toNat_le, ← hl.depth_best, ← hl'.depth_best]
  exact hl.depth_le hd

/-- What lagged behind the old tip lags behind the new one, and the walk down from the new tip does
not pass it by. -/
theorem Reachable.ancestor_selected (hr : t.Reachable) (hr' : t'.Reachable)
    (hl : t.Linked depth) (hl' : t'.Linked depth) (hs : t.Relinked t')
    (hd : t.Ancestor t.best t'.best) (ht : t.bestBlock.time ≤ t'.bestBlock.time) :
    t'.Ancestor t.selected t'.selected := by
  have hsel : t'.Ancestor t.selected t'.best := by
    rw [hs.ancestor_eq]
    exact hl.selected_ancestor.trans hd
  rcases hr.lags_or_eq_genesis with hlag | heq
  · exact hl'.ancestor_selected_of_lags hsel (hs.lags ht (hl.bestHeight_le hl' hd) hlag)
  · rw [heq, ← hs.genesis]
    exact hr'.genesis_ancestor (hl'.contains_ancestor hl'.selected_ancestor hl'.best)

theorem Linked.height_le (hl : t.Linked depth) (hc : t.Ancestor c t.best) (ha : t.Ancestor a c)
    (hx : t.get? a = some x) (hb : t.get? c = some b) : x.height ≤ b.height := by
  have hle := hl.depth_le ha
  rw [← hl.level_eq hc, ← hl.level_eq (ha.trans hc), level_of_get? hx, level_of_get? hb] at hle
  exact UInt64.le_iff_toNat_le.mpr hle

end BlockTree

open BlockTree

theorem Anchor.permits_catchingUp_iff {a : Anchor} {t : BlockTree} {h p : Hash}
    (he : a.network.enforces = true) :
    a.permits t h p true = true ↔
      ∃ q s, t.get? p = some q ∧ t.get? t.selected = some s ∧ s.height < q.height + 1 := by
  rw [permits, he]
  simp only [Bool.not_true, Bool.false_eq_true, if_false, if_true]
  cases t.get? p with
  | none => simp
  | some q => cases t.get? t.selected <;> simp

namespace BlockTree

variable {t : BlockTree} {b : Block} {h : Hash}

/-- When the main chain grows to a tip that descends from the old one and is not older, whatever the
times in between, the selected block stays or moves up, and while blocks are missing no block is
permitted that was not permitted before. -/
theorem selected_setBest (hr : t.Reachable) (hd : t.Ancestor t.best h) (hb : t.get? h = some b)
    (ht : t.bestBlock.time ≤ b.time) :
    (t.setBest h).2.Ancestor t.selected (t.setBest h).2.selected ∧
      ∀ (a : Anchor) (x p : Hash), a.permits (t.setBest h).2 x p true = true →
        a.permits t x p true = true := by
  obtain ⟨depth, hl⟩ := hr.linked
  have hr' := hr.apply (.setBest h)
  rw [Event.apply] at hr'
  rcases hl.setBest_cases h with ⟨e, he⟩ | ⟨t', he, hs, hbest, hl'⟩
  · rw [he]
    exact ⟨.refl, fun _ _ _ hp ↦ hp⟩
  rw [he] at hr' ⊢
  have htime : t.bestBlock.time ≤ t'.bestBlock.time := by
    obtain ⟨b', hb', hu⟩ := hs.extends hb
    have he : t'.bestBlock = b' := by rw [bestBlock, hbest, hb', Option.getD_some]
    rwa [he, (Block.unlinked_eq_iff.mp hu).2.2.1]
  have hup := hr.ancestor_selected hr' hl hl' hs (hbest ▸ hd) htime
  refine ⟨hup, fun a x p hp ↦ ?_⟩
  cases hen : a.network.enforces with
  | false => rw [Anchor.permits, hen]; rfl
  | true =>
    obtain ⟨q', s', hq', hs', hlt⟩ := (Anchor.permits_catchingUp_iff hen).mp hp
    obtain ⟨q, hq, hqu⟩ := hs.symm.extends hq'
    obtain ⟨s, hsel⟩ := contains_iff.mp (hl.contains_ancestor hl.selected_ancestor hl.best)
    obtain ⟨s₁, hsel', hsu⟩ := hs.extends hsel
    have hle := hl'.height_le hl'.selected_ancestor hup hsel' hs'
    rw [(Block.unlinked_eq_iff.mp hsu).2.1] at hle
    refine (Anchor.permits_catchingUp_iff hen).mpr ⟨q, s, hq, hsel, ?_⟩
    rw [(Block.unlinked_eq_iff.mp hqu).2.1]
    exact UInt64.lt_of_le_of_lt hle hlt

theorem selected_setBest_tall :
    let h (n : Nat) : Hash := Digest.ofNatLE n
    let t := (tall.setBest (h 204)).2
    let a := Anchor.new { (default : Network) with enforces := true } .strict
    tall.Reachable ∧ tall.Ancestor tall.best (h 204) ∧
      tall.get? (h 204) = some ⟨h 204, 204, 6120, some (h 203), none⟩ ∧
      tall.bestBlock.time ≤ 6120 ∧
      (t.Ancestor tall.selected t.selected ∧ ∀ (a : Anchor) (x p : Hash),
        a.permits t x p true = true → a.permits tall x p true = true) ∧
      tall.selected = h 2 ∧ t.selected = h 4 ∧
      a.permits tall (h 5) (h 2) true = true ∧ a.permits t (h 5) (h 2) true = false := by
  intro h t a
  obtain ⟨hbest, -, hsel, hp, hget, -, hold, hsel', hpermits, hrefuses, -⟩ := tall_eq
  have hd : tall.Ancestor tall.best (h 204) := hbest ▸ .single hp
  have htime : tall.bestBlock.time ≤ 6120 := by
    rw [hold]
    decide
  exact ⟨reachable_tall, hd, hget, htime, selected_setBest reachable_tall hd hget htime, hsel,
    hsel', hpermits, hrefuses⟩

end BlockTree

end ChainAnchor
