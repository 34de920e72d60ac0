import ChainAnchor.Proofs.BlockTree.Selection
import Mathlib.Algebra.Group.Int.Defs
import Mathlib.Algebra.Group.Nat.Defs

namespace ChainAnchor

section Words

variable {x d z : Int64} {k m n : UInt64}

/-- A sum of times that is past the end of the range, and turns over to a time before another. -/
def Turns (x d z : Int64) : Prop :=
  2 ^ 63 ≤ x.toInt + d.toInt ∧ x.toInt + d.toInt < z.toInt + 2 ^ 64

def TurnsBack (x d z : Int64) : Prop :=
  x.toInt - d.toInt < -2 ^ 63 ∧ z.toInt < x.toInt - d.toInt + 2 ^ 64

def TurnsLow (k m n : UInt64) : Prop :=
  2 ^ 64 ≤ k.toNat + m.toNat ∧ k.toNat + m.toNat ≤ n.toNat + 2 ^ 64

instance : Decidable (Turns x d z) := inferInstanceAs (Decidable (_ ∧ _))

instance : Decidable (TurnsBack x d z) := inferInstanceAs (Decidable (_ ∧ _))

theorem toInt_add_cases (hd : 0 ≤ d.toInt) :
    (x + d).toInt = x.toInt + d.toInt ∧ x.toInt + d.toInt < 2 ^ 63 ∨
      (x + d).toInt = x.toInt + d.toInt - 2 ^ 64 ∧ 2 ^ 63 ≤ x.toInt + d.toInt := by
  have hx := x.le_toInt
  have hx' := x.toInt_lt
  have hd' := d.toInt_lt
  rw [Int64.toInt_add, Int.bmod_def]
  split <;> omega

theorem toInt_sub_cases (hd : 0 ≤ d.toInt) :
    (x - d).toInt = x.toInt - d.toInt ∧ -2 ^ 63 ≤ x.toInt - d.toInt ∨
      (x - d).toInt = x.toInt - d.toInt + 2 ^ 64 ∧ x.toInt - d.toInt < -2 ^ 63 := by
  have hx := x.le_toInt
  have hx' := x.toInt_lt
  have hd' := d.toInt_lt
  rw [Int64.toInt_sub, Int.bmod_def]
  split <;> omega

theorem add_lt_iff (hd : 0 ≤ d.toInt) :
    x + d < z ↔ x.toInt + d.toInt < z.toInt ∨ Turns x d z := by
  have hz := z.toInt_lt
  rw [Int64.lt_iff_toInt_lt, Turns]
  rcases toInt_add_cases (x := x) hd with ⟨he, hr⟩ | ⟨he, hr⟩ <;> rw [he] <;> omega

theorem lt_sub_iff (hd : 0 ≤ d.toInt) :
    z < x - d ↔ z.toInt < x.toInt - d.toInt ∨ TurnsBack x d z := by
  have hz := z.le_toInt
  rw [Int64.lt_iff_toInt_lt, TurnsBack]
  rcases toInt_sub_cases (x := x) hd with ⟨he, hr⟩ | ⟨he, hr⟩ <;> rw [he] <;> omega

theorem add_le_iff :
    k + m ≤ n ↔ k.toNat + m.toNat ≤ n.toNat ∨ TurnsLow k m n := by
  have hk := k.toNat_lt
  have hm := m.toNat_lt
  have hn := n.toNat_lt
  rw [UInt64.le_iff_toNat_le, UInt64.toNat_add, TurnsLow]
  omega

/-- A sum of integers is in time exactly if the sum of words is and did not turn over. -/
theorem toInt_add_le_iff (hd : 0 ≤ d.toInt) :
    x.toInt + d.toInt ≤ z.toInt ↔ x + d ≤ z ∧ x.toInt + d.toInt < 2 ^ 63 := by
  have hz := z.toInt_lt
  rw [Int64.le_iff_toInt_le]
  rcases toInt_add_cases (x := x) hd with ⟨he, hr⟩ | ⟨he, hr⟩ <;> rw [he] <;> omega

theorem toNat_add_le_iff :
    k.toNat + m.toNat ≤ n.toNat ↔ k + m ≤ n ∧ k.toNat + m.toNat < 2 ^ 64 := by
  have hn := n.toNat_lt
  rw [UInt64.le_iff_toNat_le, UInt64.toNat_add]
  omega

theorem Turns.not_lt (ht : Turns x d z) : ¬x.toInt + d.toInt < z.toInt := by
  have hz := z.toInt_lt
  have hr := ht.1
  omega

theorem TurnsBack.not_lt (ht : TurnsBack x d z) : ¬z.toInt < x.toInt - d.toInt := by
  have hz := z.le_toInt
  have hr := ht.1
  omega

end Words

namespace Anchor

variable {a : Anchor} {t : BlockTree} {b : Block} {seconds now : Int64}

def OlderThan (a : Anchor) (t : BlockTree) (seconds now : Int64) : Prop :=
  ∃ b, t.get? a.current = some b ∧ b.time.toInt + seconds.toInt < now.toInt

def Mature (a : Anchor) (t : BlockTree) (now : Int64) : Prop :=
  ∃ b, t.get? a.current = some b ∧
    (b.height.toNat + Rules.maturity.toNat ≤ t.bestHeight.toNat ∨
      b.time.toInt + Rules.stakeMinAge.toInt < now.toInt)

theorem isOlderThan_iff (hs : 0 ≤ seconds) :
    a.isOlderThan t seconds now = true ↔
      a.OlderThan t seconds now ∨
        ∃ b, t.get? a.current = some b ∧ Turns b.time seconds now := by
  rw [isOlderThan, OlderThan]
  cases t.get? a.current with
  | none => simp
  | some b => simp [add_lt_iff (Int64.le_iff_toInt_le.mp hs)]

theorem isMature_iff :
    a.isMature t now = true ↔
      a.Mature t now ∨ ∃ b, t.get? a.current = some b ∧
        (TurnsLow b.height Rules.maturity t.bestHeight ∨ Turns b.time Rules.stakeMinAge now) := by
  rw [isMature, Mature]
  cases t.get? a.current with
  | none => simp
  | some b =>
    simp only [Bool.or_eq_true, decide_eq_true_eq, add_le_iff,
      add_lt_iff (d := Rules.stakeMinAge) (by decide), Option.some.injEq, exists_eq_left']
    exact or_or_or_comm

theorem isOlderThan_exact_iff (hs : 0 ≤ seconds) :
    (a.isOlderThan t seconds now = true ↔ a.OlderThan t seconds now) ↔
      ∀ b, t.get? a.current = some b → ¬Turns b.time seconds now := by
  rw [isOlderThan_iff hs, or_iff_left_iff_imp]
  refine ⟨fun he b hb ht ↦ ?_, fun hn ⟨b, hb, ht⟩ ↦ absurd ht (hn b hb)⟩
  obtain ⟨c, hc, hlt⟩ := he ⟨b, hb, ht⟩
  obtain rfl := Option.some.inj (hb.symm.trans hc)
  exact ht.not_lt hlt

theorem isMature_exact_iff :
    (a.isMature t now = true ↔ a.Mature t now) ↔
      ∀ b, t.get? a.current = some b → a.Mature t now ∨
        ¬TurnsLow b.height Rules.maturity t.bestHeight ∧ ¬Turns b.time Rules.stakeMinAge now := by
  rw [isMature_iff, or_iff_left_iff_imp]
  constructor
  · intro he b hb
    by_cases hm : a.Mature t now
    · exact Or.inl hm
    · exact Or.inr (not_or.mp fun ht ↦ hm (he ⟨b, hb, ht⟩))
  · rintro hn ⟨b, hb, ht⟩
    exact (hn b hb).resolve_right fun hf ↦ ht.elim hf.1 hf.2

theorem isOlderThan_of_le (hs : 0 ≤ seconds) (hb : t.get? a.current = some b)
    (hn : now ≤ b.time) : a.isOlderThan t seconds now = true ↔ Turns b.time seconds now := by
  have hs : 0 ≤ seconds.toInt := Int64.le_iff_toInt_le.mp hs
  have hn := Int64.le_iff_toInt_le.mp hn
  rw [isOlderThan, hb]
  simp only [decide_eq_true_eq, add_lt_iff hs]
  exact or_iff_right_of_imp fun hlt ↦ by omega

end Anchor

namespace BlockTree

variable {t : BlockTree} {depth : Hash → Nat} {tip b : Block} {h : Hash} {now : Int64}

def CatchingUp (t : BlockTree) (w : Network) (now : Int64) : Prop :=
  t.bestHeight < w.expectedHeight ∨
    t.bestBlock.time.toInt < now.toInt - Rules.maxTipAge.toInt

theorem isCatchingUp_iff {w : Network} :
    t.isCatchingUp w now = true ↔
      t.CatchingUp w now ∨ TurnsBack now Rules.maxTipAge t.bestBlock.time := by
  rw [isCatchingUp, CatchingUp, Bool.or_eq_true, decide_eq_true_eq, decide_eq_true_eq,
    lt_sub_iff (by decide), or_assoc]

theorem isCatchingUp_exact_iff {w : Network} :
    (t.isCatchingUp w now = true ↔ t.CatchingUp w now) ↔
      t.bestHeight < w.expectedHeight ∨ ¬TurnsBack now Rules.maxTipAge t.bestBlock.time := by
  rw [isCatchingUp_iff, or_iff_left_iff_imp]
  constructor
  · intro he
    by_cases ht : TurnsBack now Rules.maxTipAge t.bestBlock.time
    · exact Or.inl ((he ht).resolve_right ht.not_lt)
    · exact Or.inr ht
  · rintro (hlow | hn) ht
    · exact Or.inl hlow
    · exact absurd ht hn

/-- What `Behind` says of a block, told by integers. -/
structure Trails (tip b : Block) : Prop where
  time : b.time.toInt + Rules.checkpointMaxSpan.toInt ≤ tip.time.toInt
  height : b.height.toNat + Rules.checkpointSpan.toNat ≤ tip.height.toNat

instance : Decidable (Trails tip b) :=
  decidable_of_iff (_ ∧ _) ⟨fun ⟨ht, hh⟩ ↦ ⟨ht, hh⟩, fun ht ↦ ⟨ht.time, ht.height⟩⟩

/-- The first block on the way down from another that lags behind the tip, else the last one. -/
def firstTrailing (t : BlockTree) (tip : Block) : Nat → Block → Block
  | 0, b => b
  | steps + 1, b => match t.parent? b with
    | none => b
    | some p => if Trails tip b then b else t.firstTrailing tip steps p

def trailing (t : BlockTree) : Hash :=
  (t.firstTrailing t.bestBlock t.bestHeight.toNat t.bestBlock).hash

theorem trails_iff : Trails tip b ↔ Behind tip b ∧
    b.time.toInt + Rules.checkpointMaxSpan.toInt < 2 ^ 63 ∧
      b.height.toNat + Rules.checkpointSpan.toNat < 2 ^ 64 := by
  have ht := toInt_add_le_iff (x := b.time) (z := tip.time) (d := Rules.checkpointMaxSpan)
    (by decide)
  have hh := toNat_add_le_iff (k := b.height) (m := Rules.checkpointSpan) (n := tip.height)
  constructor
  · intro hb
    obtain ⟨hbt, hst⟩ := ht.mp hb.time
    obtain ⟨hbh, hsh⟩ := hh.mp hb.height
    exact ⟨⟨hbt, hbh⟩, hst, hsh⟩
  · rintro ⟨hb, hst, hsh⟩
    exact ⟨ht.mpr ⟨hb.time, hst⟩, hh.mpr ⟨hb.height, hsh⟩⟩

theorem Graded.firstTrailing_ancestor (hg : t.Graded depth) (tip : Block) (steps : Nat)
    (hb : t.get? h = some b) : t.Ancestor (t.firstTrailing tip steps b).hash h := by
  induction steps generalizing h b with
  | zero => rw [firstTrailing, hg.keyed hb]; exact .refl
  | succ steps ih =>
    rw [firstTrailing]
    cases hp : t.parent? b with
    | none => rw [hg.keyed hb]; exact .refl
    | some p =>
      obtain ⟨q, hq, hqp⟩ := isParent_of_parent? hb hp
      dsimp only
      split
      · rw [hg.keyed hb]; exact .refl
      · exact .tail (ih hqp) hq

theorem Graded.firstLagging_eq_iff (hg : t.Graded depth) (tip : Block) {steps : Nat}
    (hb : t.get? h = some b) (hs : depth h ≤ steps) :
    (t.firstLagging tip steps b).hash = (t.firstTrailing tip steps b).hash ↔
      t.parent? (t.firstLagging tip steps b) = none ∨ Trails tip (t.firstLagging tip steps b) := by
  induction steps generalizing h b with
  | zero =>
    rw [firstLagging, firstTrailing]
    exact iff_of_true rfl (Or.inl (hg.parent?_eq_none hb (Nat.le_zero.mp hs)))
  | succ steps ih =>
    rw [firstLagging, firstTrailing]
    cases hp : t.parent? b with
    | none => exact iff_of_true rfl (Or.inl hp)
    | some p =>
      obtain ⟨q, hq, hqp⟩ := isParent_of_parent? hb hp
      have hd := hg.depth_parent hq
      dsimp only
      by_cases ht : Trails tip b
      · rw [isClose_eq_false_iff.mpr (trails_iff.mp ht).1, if_pos ht]
        exact iff_of_true rfl (Or.inr ht)
      rw [if_neg ht]
      cases hc : isClose tip b with
      | true => exact ih hqp (by omega)
      | false =>
        -- the other walk goes on to the parent and does not come back
        refine iff_of_false (fun he ↦ ?_) (not_or.mpr ⟨by simp [hp], ht⟩)
        have ha := hg.firstTrailing_ancestor tip steps hqp
        rw [← he, if_neg Bool.false_ne_true, hg.keyed hb] at ha
        exact hg.not_ancestor_of_isParent hq ha

theorem Reachable.not_isParent_genesis {p : Hash} (hr : t.Reachable) :
    ¬t.IsParent p t.genesis := by
  intro hp
  obtain ⟨depth, hl⟩ := hr.linked
  exact hl.not_ancestor_of_isParent hp (hr.genesis_ancestor (hl.contains_parent hp))

theorem Reachable.parent?_eq_none_iff (hr : t.Reachable) (hb : t.get? h = some b) :
    t.parent? b = none ↔ h = t.genesis := by
  constructor
  · intro hp
    obtain ⟨depth, hl⟩ := hr.linked
    exact hr.eq_genesis hb (hl.parent_eq_none hb hp)
  · rintro rfl
    cases hp : t.parent? b with
    | none => rfl
    | some p =>
      obtain ⟨q, hq, -⟩ := isParent_of_parent? hb hp
      exact absurd hq hr.not_isParent_genesis

theorem Reachable.selected_eq_trailing_iff (hr : t.Reachable) :
    t.selected = t.trailing ↔ t.selected = t.genesis ∨
      ∀ b, t.get? t.selected = some b →
        b.time.toInt + Rules.checkpointMaxSpan.toInt < 2 ^ 63 ∧
          b.height.toNat + Rules.checkpointSpan.toNat < 2 ^ 64 := by
  obtain ⟨depth, hl⟩ := hr.linked
  have hd : depth t.best ≤ t.bestHeight.toNat := Nat.le_of_eq hl.depth_best
  have hget := ((hl.halts_firstLagging t.bestBlock hl.get?_best hd).ancestor hl.keyed
    hl.get?_best).1
  have hsel := hr.lags_or_eq_genesis
  rw [selected] at hsel ⊢
  rw [trailing, hl.firstLagging_eq_iff t.bestBlock hl.get?_best hd, hr.parent?_eq_none_iff hget]
  rcases hsel with ⟨b, hb, hbehind⟩ | heq
  · obtain rfl := Option.some.inj (hb.symm.trans hget)
    simp only [hb, trails_iff, hbehind, true_and, Option.some.injEq, forall_eq']
  · exact iff_of_true (Or.inl heq) (Or.inl heq)

theorem Reachable.selected_time_le_iff (hr : t.Reachable) (hne : t.selected ≠ t.genesis)
    (hb : t.get? t.selected = some b) :
    b.time.toInt + Rules.checkpointMaxSpan.toInt ≤ t.bestBlock.time.toInt ↔
      b.time.toInt + Rules.checkpointMaxSpan.toInt < 2 ^ 63 := by
  obtain ⟨c, hc, hbehind⟩ := hr.lags_or_eq_genesis.resolve_right hne
  obtain rfl := Option.some.inj (hb.symm.trans hc)
  rw [toInt_add_le_iff (by decide), and_iff_right hbehind.time]

end BlockTree

open BlockTree

/-- What is told of ages is what integers say, save where a sum of times or heights turns over.
A checkpoint that is not in the past is then called too old, and a block is selected that does not
lag behind the tip. -/
theorem ages_exact_iff {t : BlockTree} {seconds : Int64} (hr : t.Reachable) (hs : 0 ≤ seconds)
    (a : Anchor) (w : Network) (now : Int64) :
    ((a.isOlderThan t seconds now = true ↔ a.OlderThan t seconds now) ↔
      ∀ b, t.get? a.current = some b → ¬Turns b.time seconds now) ∧
    (∀ b, t.get? a.current = some b → now ≤ b.time →
      (a.isOlderThan t seconds now = true ↔ Turns b.time seconds now)) ∧
    ((a.isMature t now = true ↔ a.Mature t now) ↔
      ∀ b, t.get? a.current = some b → a.Mature t now ∨
        ¬TurnsLow b.height Rules.maturity t.bestHeight ∧
          ¬Turns b.time Rules.stakeMinAge now) ∧
    ((t.isCatchingUp w now = true ↔ t.CatchingUp w now) ↔
      t.bestHeight < w.expectedHeight ∨ ¬TurnsBack now Rules.maxTipAge t.bestBlock.time) ∧
    (t.selected = t.trailing ↔ t.selected = t.genesis ∨
      ∀ b, t.get? t.selected = some b →
        b.time.toInt + Rules.checkpointMaxSpan.toInt < 2 ^ 63 ∧
          b.height.toNat + Rules.checkpointSpan.toNat < 2 ^ 64) ∧
    (t.selected ≠ t.genesis → ∀ b, t.get? t.selected = some b →
      (b.time.toInt + Rules.checkpointMaxSpan.toInt ≤ t.bestBlock.time.toInt ↔
        b.time.toInt + Rules.checkpointMaxSpan.toInt < 2 ^ 63)) :=
  ⟨Anchor.isOlderThan_exact_iff hs, fun _ hb hn ↦ Anchor.isOlderThan_of_le hs hb hn,
    Anchor.isMature_exact_iff, isCatchingUp_exact_iff, hr.selected_eq_trailing_iff,
    fun hne _ hb ↦ hr.selected_time_le_iff hne hb⟩

/-- The latest time there is, and a second more. -/
theorem ages_exact_iff_latest :
    let w : Network := default
    let t := withGenesis w.genesis Int64.maxValue
    let a := Anchor.new w .strict
    t.Reachable ∧ (0 : Int64) ≤ 1 ∧
      (a.isOlderThan t 1 0 = true ↔ Turns Int64.maxValue 1 0) ∧ Turns Int64.maxValue 1 0 ∧
      (t.isCatchingUp w 0 = true ↔ t.CatchingUp w 0) := by
  intro w t a
  have hr : t.Reachable := ⟨_, _, [], rfl⟩
  have hget : t.get? a.current = some ⟨w.genesis, 0, Int64.maxValue, none, none⟩ :=
    get?_withGenesis.mpr ⟨rfl, rfl⟩
  have hbest : t.bestBlock.time = Int64.maxValue := by
    rw [bestBlock, show t.best = a.current from rfl, hget, Option.getD_some]
  obtain ⟨-, hfuture, -, hcatching, -⟩ := ages_exact_iff hr (by decide : (0 : Int64) ≤ 1) a w 0
  refine ⟨hr, by decide, hfuture _ hget (by decide), by decide, hcatching.mpr (Or.inr ?_)⟩
  rw [hbest]
  decide

theorem not_ages_exact :
    ¬∀ (t : BlockTree) (a : Anchor) (w : Network) (seconds now : Int64), t.Reachable → 0 ≤ seconds →
      (a.isOlderThan t seconds now = true ↔ a.OlderThan t seconds now) ∧
      (a.isMature t now = true ↔ a.Mature t now) ∧
      (t.isCatchingUp w now = true ↔ t.CatchingUp w now) ∧ t.selected = t.trailing := by
  intro hex
  let w : Network := default
  let t := withGenesis w.genesis Int64.maxValue
  obtain ⟨hold, -⟩ := hex t (Anchor.new w .strict) w 1 0 ⟨_, _, [], rfl⟩ (by decide)
  have hget : t.get? w.genesis = some ⟨w.genesis, 0, Int64.maxValue, none, none⟩ :=
    get?_withGenesis.mpr ⟨rfl, rfl⟩
  obtain ⟨b, hb, hlt⟩ := hold.mp (by rw [Anchor.isOlderThan, Anchor.new, hget]; decide)
  obtain rfl := Option.some.inj (hget.symm.trans hb)
  exact absurd hlt (by decide)

end ChainAnchor
