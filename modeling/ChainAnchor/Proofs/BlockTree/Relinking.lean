import ChainAnchor.Proofs.BlockTree.Rooted

namespace ChainAnchor.BlockTree

variable {t t' : BlockTree} {depth : Hash → Nat} {a c fork h p tip x y : Hash}
  {above : List Hash}

def next? (t : BlockTree) (h : Hash) : Option Hash := (t.get? h).bind Block.next

/-- A block has a successor exactly if it is a strict ancestor of the tip: its child on the way. -/
def LinkedTo (t : BlockTree) (tip : Hash) : Prop :=
  ∀ x c, t.next? x = some c ↔ t.IsParent x c ∧ t.Ancestor c tip

def LinkedBelow (t : BlockTree) (tip : Hash) : Prop :=
  ∀ x c, x ≠ tip → (t.next? x = some c ↔ t.IsParent x c ∧ t.Ancestor c tip)

theorem LinkedTo.linkedBelow_parent (hl : t.LinkedTo x) (hp : t.IsParent p x) :
    t.LinkedBelow p := by
  intro y c hy
  rw [hl y c]
  refine and_congr_right fun hc ↦ ⟨fun ha ↦ ?_, fun ha ↦ .tail ha hp⟩
  rcases ha.eq_or_parent hp with rfl | ha
  · exact absurd (hc.eq hp) hy
  · exact ha

structure SetsNext (t : BlockTree) (h : Hash) (next : Option Hash) (t' : BlockTree) : Prop where
  relinked : t.Relinked t'
  best : t'.best = t.best
  next? (x : Hash) : t'.next? x = if h = x then next else t.next? x

theorem setNext_relinked (t : BlockTree) (h : Hash) (next : Option Hash) :
    t.Relinked (t.setNext h next).2 := by
  rw [setNext]
  split
  · exact .refl t
  next b hb =>
    refine ⟨fun x ↦ ?_, rfl, rfl⟩
    have hg := get?_put t h { b with next := next } t.orphans x
    change (get? { t with blocks := t.blocks.insert h _ } x).map _ = _
    rw [hg]
    split
    next he => rw [← he, hb]; rfl
    next => rfl

theorem exists_setNext (hh : t.contains h = true) (next : Option Hash) :
    ∃ t', t.setNext h next = (.ok (), t') ∧ t.SetsNext h next t' := by
  obtain ⟨b, hb⟩ := contains_iff.mp hh
  have he : t.setNext h next =
      (.ok (), { t with blocks := t.blocks.insert h { b with next := next } }) := by
    rw [setNext, hb]
  refine ⟨_, he, ?_, rfl, fun x ↦ ?_⟩
  · have hr := setNext_relinked t h next
    rwa [he] at hr
  · have hg := get?_put t h { b with next := next } t.orphans x
    rw [BlockTree.next?, hg]
    split <;> rfl

theorem SetsNext.linkedTo_of_none (hs : t.SetsNext x none t') (hg : t.Graded depth)
    (hl : t.LinkedBelow x) : t'.LinkedTo x := by
  intro y c
  rw [hs.next?, hs.relinked.isParent_eq, hs.relinked.ancestor_eq]
  split
  next he =>
    subst he
    refine iff_of_false (fun hn ↦ by cases hn) fun ⟨hc, ha⟩ ↦ ?_
    exact hg.not_ancestor_of_isParent hc ha
  next hne => exact hl y c (Ne.symm hne)

theorem SetsNext.linkedTo_child (hs : t.SetsNext x (some h) t') (hg : t.Graded depth)
    (hl : t.LinkedTo x) (hp : t.IsParent x h) : t'.LinkedTo h := by
  intro y c
  rw [hs.next?, hs.relinked.isParent_eq, hs.relinked.ancestor_eq]
  split
  next he =>
    subst he
    constructor
    · intro hn
      cases hn
      exact ⟨hp, .refl⟩
    · rintro ⟨hc, ha⟩
      rcases ha.eq_or_parent hp with rfl | ha
      · rfl
      · exact absurd ha (hg.not_ancestor_of_isParent hc)
  next hne =>
    rw [hl y c]
    refine and_congr_right fun hc ↦ ⟨fun ha ↦ .tail ha hp, fun ha ↦ ?_⟩
    rcases ha.eq_or_parent hp with rfl | ha
    · exact absurd (hp.eq hc) hne
    · exact ha

theorem Relinked.of_result {r : Except TreeError Unit × BlockTree} {e : Except TreeError Unit}
    (hr : t.Relinked r.2) (he : r = (e, t')) : t.Relinked t' := by
  rwa [he] at hr

theorem unlink_relinked (fork : Hash) (steps : Nat) (x : Hash) (t : BlockTree) :
    t.Relinked (unlink fork steps x t).2 := by
  induction steps generalizing x t with
  | zero =>
    unfold unlink
    split
    · exact .refl t
    · split <;> exact (setNext_relinked t x none).of_result ‹_›
  | succ steps ih =>
    unfold unlink
    split
    · exact .refl t
    · split
      next hs => exact (setNext_relinked t x none).of_result hs
      next t₁ hs =>
        have hr := (setNext_relinked t x none).of_result hs
        cases hp : (t₁.get? x).bind Block.parent with
        | none => simpa only [hp] using hr
        | some p => simpa only [hp] using hr.trans (ih p t₁)

theorem link_relinked (x : Hash) (above : List Hash) (t : BlockTree) :
    t.Relinked (link x above t).2 := by
  induction above generalizing x t with
  | nil => exact .refl t
  | cons c above ih =>
    rw [link]
    split
    next hs => exact (setNext_relinked t x (some c)).of_result hs
    next t₁ hs => exact ((setNext_relinked t x (some c)).of_result hs).trans (ih c t₁)

/-- Whether it succeeds or fails, a switch changes no more than links. -/
theorem setBest_relinked (t : BlockTree) (h : Hash) : t.Relinked (t.setBest h).2 := by
  rw [setBest]
  split
  · exact .refl t
  split
  · exact .refl t
  next fork above _ =>
    have hunlink := unlink_relinked fork t.bestHeight.toNat t.best t
    split
    next hu => exact hunlink.of_result hu
    next t₁ hu =>
      have hset := (hunlink.of_result hu).trans (setNext_relinked t₁ fork none)
      split
      next hs => exact hset.of_result hs
      next t₂ hs =>
        have hlink := (hset.of_result hs).trans (link_relinked fork above t₂)
        split
        next hl => exact hlink.of_result hl
        next t₃ hl => exact (hlink.of_result hl).trans ⟨fun _ ↦ rfl, rfl, rfl⟩

/-- The blocks above one, up to another that descends from it. -/
inductive Path (t : BlockTree) : Hash → List Hash → Hash → Prop
  | nil (x : Hash) : Path t x [] x
  | cons {x c tip : Hash} {above : List Hash} :
      t.IsParent x c → Path t c above tip → Path t x (c :: above) tip

theorem Path.relinked (hp : t.Path x above tip) (hr : t.Relinked t') : t'.Path x above tip := by
  induction hp with
  | nil x => exact .nil x
  | cons hc _ ih => exact .cons (hr.extends.isParent hc) ih

theorem branch_of_isOnMain (hm : t.isOnMain x = true) (steps : Nat) (above : List Hash) :
    t.branch steps x above = .ok (x, above) := by
  unfold branch
  rw [if_pos hm]

theorem branch_succ (hm : t.isOnMain x = false) (hp : t.IsParent p x) (steps : Nat)
    (above : List Hash) : t.branch (steps + 1) x above = t.branch steps p (x :: above) := by
  obtain ⟨b, hb, hp⟩ := hp
  rw [branch.eq_def]
  simp [hm, hb, hp]

/-- The walk down from a block ends on the main chain before the steps run out. -/
theorem branch_path (hr : t.Rooted) (hg : t.isOnMain t.genesis = true)
    {steps : Nat} (hx : t.contains x = true) (hs : t.level x ≤ steps)
    (hp : t.Path x above tip) :
    ∃ fork path, t.branch steps x above = .ok (fork, path) ∧ t.isOnMain fork = true ∧
      t.Path fork path tip := by
  -- every step goes down one level, and the genesis block, at level 0, is on the main chain
  induction steps generalizing x above with
  | zero =>
    rcases hr.eq_genesis_or_parent hx with rfl | ⟨p, hpx⟩
    · exact ⟨_, _, branch_of_isOnMain hg 0 above, hg, hp⟩
    · have hl := hr.level_parent hpx
      omega
  | succ steps ih =>
    cases hm : t.isOnMain x with
    | true => exact ⟨x, above, branch_of_isOnMain hm _ above, hm, hp⟩
    | false =>
      rcases hr.eq_genesis_or_parent hx with rfl | ⟨p, hpx⟩
      · rw [hg] at hm
        cases hm
      have hl := hr.level_parent hpx
      rw [branch_succ hm hpx]
      exact ih (hr.contains_parent hpx) (by omega) (.cons hpx hp)

theorem branch_ok (hg : t.Graded depth) {steps : Nat} {path : List Hash}
    (hp : t.Path x above tip) (hb : t.branch steps x above = .ok (fork, path)) :
    t.isOnMain fork = true ∧ depth x ≤ depth fork + steps ∧ t.Path fork path tip := by
  induction steps generalizing x above with
  | zero =>
    unfold branch at hb
    split at hb
    next hm =>
      cases hb
      exact ⟨hm, Nat.le_refl _, hp⟩
    next => cases hb
  | succ steps ih =>
    cases hm : t.isOnMain x with
    | true =>
      rw [branch_of_isOnMain hm] at hb
      cases hb
      exact ⟨hm, Nat.le_add_right _ _, hp⟩
    | false =>
      cases hq : (t.get? x).bind Block.parent with
      | none =>
        rw [branch.eq_def] at hb
        simp [hm, hq] at hb
      | some q =>
        have hq := isParent_iff.mpr hq
        rw [branch_succ hm hq] at hb
        obtain ⟨hf, hd, hpath⟩ := ih (.cons hq hp) hb
        have hdq := hg.depth_parent hq
        exact ⟨hf, by omega, hpath⟩

/-- The walk down from the tip to one of its ancestors ends before the steps run out. -/
theorem unlink_linked (hg : t.Graded depth) {steps : Nat} (hx : t.contains x = true)
    (hf : t.Ancestor fork x) (hs : depth x ≤ steps) (hl : t.LinkedBelow x) :
    ∃ t', unlink fork steps x t = (.ok (), t') ∧ t.Relinked t' ∧ t'.best = t.best ∧
      t'.LinkedBelow fork := by
  -- the tip may keep its successor until it is unlinked itself, hence `LinkedBelow`
  induction steps generalizing x t with
  | zero =>
    have he : x = fork := by
      rcases Relation.ReflTransGen.cases_tail hf with he | ⟨p, -, hp⟩
      · exact he
      · have hdp := hg.depth_parent hp
        omega
    exact ⟨t, by rw [unlink, if_pos he], .refl t, rfl, he ▸ hl⟩
  | succ steps ih =>
    by_cases he : x = fork
    · exact ⟨t, by rw [unlink, if_pos he], .refl t, rfl, he ▸ hl⟩
    rcases Relation.ReflTransGen.cases_tail hf with he' | ⟨p, hfp, hp⟩
    · exact absurd he' he
    have hdp := hg.depth_parent hp
    obtain ⟨t₁, hset, hn⟩ := exists_setNext hx none
    have hg₁ := hg.relinked hn.relinked
    have hp₁ := hn.relinked.extends.isParent hp
    obtain ⟨t', hunlink, hrel, hbest, hbelow⟩ :=
      ih hg₁ (hg₁.contains_parent hp₁) (hn.relinked.extends.ancestor hfp) (by omega)
        ((hn.linkedTo_of_none hg hl).linkedBelow_parent hp₁)
    refine ⟨t', ?_, hn.relinked.trans hrel, hbest.trans hn.best, hbelow⟩
    obtain ⟨b, hb, hbp⟩ := hp₁
    rw [unlink, if_neg he, hset]
    simp only [hb, Option.bind_some, hbp]
    exact hunlink

theorem link_linked (hg : t.Graded depth) (hx : t.contains x = true) (hl : t.LinkedTo x)
    (hp : t.Path x above tip) :
    ∃ t', link x above t = (.ok (), t') ∧ t.Relinked t' ∧ t'.best = t.best ∧
      t'.LinkedTo tip := by
  induction above generalizing x t with
  | nil =>
    cases hp
    exact ⟨t, rfl, .refl t, rfl, hl⟩
  | cons c above ih =>
    obtain - | ⟨hc, hp⟩ := hp
    obtain ⟨t₁, hset, hn⟩ := exists_setNext hx (some c)
    obtain ⟨t', hlink, hrel, hbest, hlinked⟩ := ih (hg.relinked hn.relinked)
      (hn.relinked.extends.contains hc.contains_child) (hn.linkedTo_child hg hl hc)
      (hp.relinked hn.relinked)
    refine ⟨t', ?_, hn.relinked.trans hrel, hbest.trans hn.best, hlinked⟩
    rw [link, hset]
    exact hlink

structure Linked (t : BlockTree) (depth : Hash → Nat) : Prop extends t.Graded depth where
  best : t.contains t.best = true
  next : t.LinkedTo t.best
  low : depth t.best < UInt64.size

/-- The main chain is made of the tip and its ancestors. -/
theorem Linked.isOnMain_iff (hl : t.Linked depth) :
    t.isOnMain h = true ↔ t.Ancestor h t.best := by
  rw [isOnMain]
  split
  next hh =>
    refine iff_of_false Bool.false_ne_true fun ha ↦ ?_
    have hc := hl.contains_ancestor ha hl.best
    rw [contains_eq_false_iff.mpr hh] at hc
    cases hc
  next b hb =>
    have hn : t.next? h = b.next := by rw [BlockTree.next?, hb, Option.bind_some]
    rw [Bool.or_eq_true, decide_eq_true_eq, hl.keyed hb]
    constructor
    · rintro (hsome | rfl)
      · obtain ⟨c, hc⟩ := Option.isSome_iff_exists.mp hsome
        obtain ⟨hp, ha⟩ := (hl.next h c).mp (hn.trans hc)
        exact .head hp ha
      · exact .refl
    · intro ha
      rcases Relation.ReflTransGen.cases_head ha with rfl | ⟨c, hc, ha⟩
      · exact Or.inr rfl
      · rw [← hn, (hl.next h c).mpr ⟨hc, ha⟩]
        exact Or.inl rfl

theorem Linked.depth_best (hl : t.Linked depth) : depth t.best = t.bestHeight.toNat := by
  obtain ⟨b, hb⟩ := contains_iff.mp hl.best
  rw [bestHeight, bestBlock, hb, Option.getD_some, hl.height hb, UInt64.toNat_ofNat',
    Nat.mod_eq_of_lt hl.low]

theorem Linked.exists_setBest (hl : t.Linked depth) {b : Block} (hb : t.get? h = some b)
    (hbranch : t.branch b.height.toNat h [] = .ok (fork, above)) :
    ∃ t', t.setBest h = (.ok (), t') ∧ t.Relinked t' ∧ t'.best = h ∧ t'.Linked depth := by
  obtain ⟨hf, hd, hpath⟩ := branch_ok hl.toGraded (.nil h) hbranch
  have hanc := hl.isOnMain_iff.mp hf
  obtain ⟨t₁, hunlink, hr₁, -, hl₁⟩ := unlink_linked hl.toGraded hl.best hanc
    (Nat.le_of_eq hl.depth_best) fun x c _ ↦ hl.next x c
  have hfork := hr₁.extends.contains (hl.contains_ancestor hanc hl.best)
  obtain ⟨t₂, hset, hn⟩ := exists_setNext hfork none
  have hr₂ := hr₁.trans hn.relinked
  obtain ⟨t₃, hlink, hr₃, -, hl₃⟩ := link_linked (hl.toGraded.relinked hr₂)
    (hn.relinked.extends.contains hfork) (hn.linkedTo_of_none (hl.toGraded.relinked hr₁) hl₁)
    (hpath.relinked hr₂)
  have hr : t.Relinked { t₃ with best := h } := (hr₂.trans hr₃).trans ⟨fun _ ↦ rfl, rfl, rfl⟩
  -- the walk was no longer than the height, so the height of the tip did not run out either
  have hlow : depth h < UInt64.size := by
    have hle := hl.depth_le hanc
    have hbest := hl.low
    have hh := hl.height hb
    rw [hh, UInt64.toNat_ofNat'] at hd
    simp only [UInt64.size] at hbest ⊢
    omega
  refine ⟨{ t₃ with best := h }, ?_, hr, rfl, hl.toGraded.relinked hr,
    hr.extends.contains (contains_iff.mpr ⟨b, hb⟩), hl₃, hlow⟩
  rw [setBest, hb]
  simp only [hbranch, hunlink, hset, hlink]

theorem Linked.setBest_cases (hl : t.Linked depth) (h : Hash) :
    (∃ e, t.setBest h = (.error e, t)) ∨
    ∃ t', t.setBest h = (.ok (), t') ∧ t.Relinked t' ∧ t'.best = h ∧ t'.Linked depth := by
  cases hb : t.get? h with
  | none => exact Or.inl ⟨.unknownBlock, by rw [setBest, hb]⟩
  | some b =>
    rcases hbranch : t.branch b.height.toNat h [] with e | ⟨fork, above⟩
    · refine Or.inl ⟨e, ?_⟩
      rw [setBest, hb]
      simp only [hbranch]
    · exact Or.inr (hl.exists_setBest hb hbranch)

/-- A new block is off the main chain, so no link leads to it or from it. -/
theorem Linked.next_insert (hl : t.Linked depth) (h p : Hash) (time : Int64) :
    (t.insert h p time).2.LinkedTo (t.insert h p time).2.best := by
  have hext := insert_extends t h p time
  rcases insert_cases t h p time with ⟨e, he⟩ | ⟨q, t', hh, -, he, hget, -, -, hbest⟩
  · rw [he]
    exact hl.next
  rw [he] at hext ⊢
  intro x c
  have hnext : t'.next? x = t.next? x := by
    rw [next?, next?, hget]
    split
    next hx => rw [← hx, hh]; rfl
    next => rfl
  rw [hnext, hbest, hl.next x c]
  constructor
  · rintro ⟨hp, ha⟩
    exact ⟨hext.isParent hp, hext.ancestor ha⟩
  · rintro ⟨hp, ha⟩
    have ha := hl.ancestor_of_extends hext hl.best ha
    exact ⟨hext.isParent_of_contains (hl.contains_ancestor ha hl.best) hp, ha⟩

/-- The shape of a tree with its main chain: successors lead from the genesis block to the tip. -/
structure Sound (t : BlockTree) : Prop extends t.Rooted where
  best : t.contains t.best = true
  next : t.LinkedTo t.best

theorem Sound.level_best (hs : t.Sound) : t.level t.best = t.bestHeight.toNat := by
  obtain ⟨b, hb⟩ := contains_iff.mp hs.best
  rw [level_of_get? hb, bestHeight, bestBlock, hb, Option.getD_some]

theorem Sound.linked (hs : t.Sound) : t.Linked t.level :=
  ⟨hs.toRooted.graded, hs.best, hs.next, by rw [hs.level_best]; exact UInt64.toNat_lt _⟩

theorem Sound.isOnMain_iff (hs : t.Sound) : t.isOnMain h = true ↔ t.Ancestor h t.best :=
  hs.linked.isOnMain_iff

/-- In a sound tree the walks end and the switch succeeds. -/
theorem Sound.exists_setBest (hs : t.Sound) (hh : t.contains h = true) :
    ∃ t', t.setBest h = (.ok (), t') ∧ t.Relinked t' ∧ t'.best = h ∧ t'.Sound := by
  obtain ⟨b, hb⟩ := contains_iff.mp hh
  have hg := hs.isOnMain_iff.mpr (hs.genesis_ancestor hs.best)
  obtain ⟨fork, above, hbranch, -, -⟩ :=
    branch_path hs.toRooted hg hh (Nat.le_of_eq (level_of_get? hb)) (.nil h)
  obtain ⟨t', he, hr, hbest, hl⟩ := hs.linked.exists_setBest hb hbranch
  exact ⟨t', he, hr, hbest, hs.toRooted.relinked hr, hl.best, hl.next⟩

end ChainAnchor.BlockTree
