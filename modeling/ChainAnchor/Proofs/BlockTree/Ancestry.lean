import ChainAnchor.BlockTree.MainChain
import ChainAnchor.BlockTree.Orphan
import Mathlib.Logic.Relation

namespace ChainAnchor

namespace Block

def unlinked (b : Block) : Block := { b with next := none }

theorem unlinked_eq_iff {b c : Block} : b.unlinked = c.unlinked ↔
    b.hash = c.hash ∧ b.height = c.height ∧ b.time = c.time ∧ b.parent = c.parent := by
  simp [unlinked]

end Block

namespace BlockTree

variable {t t' u : BlockTree} {a c h p x y : Hash} {b : Block}

def IsParent (t : BlockTree) (p h : Hash) : Prop := ∃ b, t.get? h = some b ∧ b.parent = some p

theorem isParent_iff : t.IsParent p h ↔ (t.get? h).bind Block.parent = some p :=
  Option.bind_eq_some_iff.symm

instance : Decidable (t.IsParent p h) := decidable_of_iff _ isParent_iff.symm

/-- The block itself or one that it descends from. -/
def Ancestor (t : BlockTree) : Hash → Hash → Prop := Relation.ReflTransGen t.IsParent

def StrictAncestor (t : BlockTree) : Hash → Hash → Prop := Relation.TransGen t.IsParent

theorem contains_eq (t : BlockTree) (h : Hash) : t.contains h = (t.get? h).isSome :=
  Std.ExtTreeMap.contains_eq_isSome_getElem?

theorem contains_iff : t.contains h = true ↔ ∃ b, t.get? h = some b := by
  rw [contains_eq, Option.isSome_iff_exists]

theorem contains_eq_false_iff : t.contains h = false ↔ t.get? h = none := by
  rw [contains_eq, Option.isSome_eq_false_iff, Option.isNone_iff_eq_none]

theorem get?_put (t : BlockTree) (h : Hash) (b : Block) (o : Std.ExtTreeMap Hash Hash) (x : Hash) :
    get? { t with blocks := t.blocks.insert h b, orphans := o } x =
      if h = x then some b else t.get? x := by
  simp only [get?, Std.ExtTreeMap.getElem?_insert, Std.compare_eq_iff_eq]

/-- All that adding a block can do. -/
theorem insert_cases (t : BlockTree) (h p : Hash) (time : Int64) :
    (∃ e, t.insert h p time = (.error e, t)) ∨
    ∃ q t', t.get? h = none ∧ t.get? p = some q ∧ t.insert h p time = (.ok (), t') ∧
      (∀ x, t'.get? x =
        if h = x then some ⟨h, q.height + 1, time, some p, none⟩ else t.get? x) ∧
      t'.orphans = t.orphans.erase h ∧ t'.genesis = t.genesis ∧ t'.best = t.best := by
  rw [insert]
  split
  · exact Or.inl ⟨_, rfl⟩
  next hh =>
    split
    · exact Or.inl ⟨_, rfl⟩
    next q hq =>
      refine Or.inr ⟨q, _, contains_eq_false_iff.mp (by simpa using hh), hq, rfl, ?_, rfl, rfl, rfl⟩
      exact get?_put t h _ _

theorem eq_or_get?_of_insert {c : Block} (hg : ∀ x, t'.get? x = if h = x then some c else t.get? x)
    (hb : t'.get? x = some b) : (x = h ∧ b = c) ∨ t.get? x = some b := by
  rw [hg] at hb
  split at hb
  next hx => exact Or.inl ⟨hx.symm, (Option.some.inj hb).symm⟩
  next => exact Or.inr hb

theorem IsParent.contains_child (h' : t.IsParent p h) : t.contains h = true := by
  obtain ⟨b, hb, -⟩ := h'
  exact contains_iff.mpr ⟨b, hb⟩

theorem StrictAncestor.contains (ha : t.StrictAncestor a h) : t.contains h = true := by
  obtain ⟨p, -, hp⟩ := Relation.TransGen.tail'_iff.mp ha
  exact hp.contains_child

theorem IsParent.eq (hp : t.IsParent p h) (ha : t.IsParent a h) : p = a := by
  obtain ⟨b, hb, hp⟩ := hp
  obtain ⟨b', hb', ha⟩ := ha
  rw [hb] at hb'
  cases hb'
  exact Option.some.inj (hp.symm.trans ha)

/-- What an ancestor is to the parent of a block that it is not itself. -/
theorem Ancestor.eq_or_parent (h' : t.Ancestor a h) (hp : t.IsParent p h) :
    a = h ∨ t.Ancestor a p := by
  rcases Relation.ReflTransGen.cases_tail h' with he | ⟨q, ha, hq⟩
  · exact Or.inl he.symm
  · exact Or.inr (hp.eq hq ▸ ha)

theorem StrictAncestor.of_ne (h' : t.Ancestor a h) (hne : a ≠ h) : t.StrictAncestor a h := by
  rcases Relation.reflTransGen_iff_eq_or_transGen.mp h' with he | ht
  · exact absurd he.symm hne
  · exact ht

theorem Ancestor.total (ha : t.Ancestor a h) (hc : t.Ancestor c h) :
    t.Ancestor a c ∨ t.Ancestor c a := by
  induction ha with
  | refl => exact Or.inr hc
  | @tail q h ha hq ih =>
    rcases hc.eq_or_parent hq with rfl | hc
    · exact Or.inl (Relation.ReflTransGen.tail ha hq)
    · exact ih hc

/-- Every block of one tree is in the other, but for its successor the same. -/
def Extends (t t' : BlockTree) : Prop :=
  ∀ ⦃h b⦄, t.get? h = some b → ∃ b', t'.get? h = some b' ∧ b'.unlinked = b.unlinked

theorem Extends.refl (t : BlockTree) : t.Extends t := fun _ b hb ↦ ⟨b, hb, rfl⟩

theorem Extends.trans (h₁ : t.Extends t') (h₂ : t'.Extends u) : t.Extends u := by
  intro h b hb
  obtain ⟨b', hb', he⟩ := h₁ hb
  obtain ⟨b'', hb'', he'⟩ := h₂ hb'
  exact ⟨b'', hb'', he'.trans he⟩

theorem Extends.contains (he : t.Extends t') (h' : t.contains h = true) : t'.contains h = true := by
  obtain ⟨b, hb⟩ := contains_iff.mp h'
  obtain ⟨b', hb', -⟩ := he hb
  exact contains_iff.mpr ⟨b', hb'⟩

theorem Extends.isParent (he : t.Extends t') (hp : t.IsParent p h) : t'.IsParent p h := by
  obtain ⟨b, hb, hp⟩ := hp
  obtain ⟨b', hb', hu⟩ := he hb
  exact ⟨b', hb', (Block.unlinked_eq_iff.mp hu).2.2.2.trans hp⟩

/-- A block keeps its parent, so a block of the smaller tree has no other one in the bigger tree. -/
theorem Extends.isParent_of_contains (he : t.Extends t') (hh : t.contains h = true)
    (hp : t'.IsParent p h) : t.IsParent p h := by
  obtain ⟨b, hb⟩ := contains_iff.mp hh
  obtain ⟨b', hb', hu⟩ := he hb
  obtain ⟨c, hc, hp⟩ := hp
  obtain rfl := Option.some.inj (hb'.symm.trans hc)
  exact ⟨b, hb, (Block.unlinked_eq_iff.mp hu).2.2.2.symm.trans hp⟩

theorem Extends.ancestor (he : t.Extends t') (ha : t.Ancestor a h) : t'.Ancestor a h :=
  Relation.ReflTransGen.mono (fun _ _ ↦ he.isParent) _ _ ha

theorem Extends.strictAncestor (he : t.Extends t') (ha : t.StrictAncestor a h) :
    t'.StrictAncestor a h :=
  Relation.TransGen.mono (fun _ _ ↦ he.isParent) _ _ ha

theorem insert_extends (t : BlockTree) (h p : Hash) (time : Int64) :
    t.Extends (t.insert h p time).2 := by
  rcases insert_cases t h p time with ⟨e, he⟩ | ⟨q, t', hh, -, he, hg, -⟩
  · rw [he]
    exact .refl t
  · rw [he]
    intro x b hb
    have hne : h ≠ x := fun hx ↦ by simp [← hx, hh] at hb
    exact ⟨b, by rw [hg, if_neg hne, hb], rfl⟩

theorem addOrphan_extends (t : BlockTree) (h p : Hash) : t.Extends (t.addOrphan h p) := by
  rw [addOrphan]
  split
  · exact .refl t
  · exact fun _ b hb ↦ ⟨b, hb, rfl⟩

/-- The trees differ in no more than their tip and the successors of their blocks. -/
structure Relinked (t t' : BlockTree) : Prop where
  get? (h : Hash) : (t'.get? h).map Block.unlinked = (t.get? h).map Block.unlinked
  orphans : t'.orphans = t.orphans
  genesis : t'.genesis = t.genesis

theorem Relinked.refl (t : BlockTree) : t.Relinked t := ⟨fun _ ↦ rfl, rfl, rfl⟩

theorem Relinked.symm (hr : t.Relinked t') : t'.Relinked t :=
  ⟨fun h ↦ (hr.get? h).symm, hr.orphans.symm, hr.genesis.symm⟩

theorem Relinked.trans (h₁ : t.Relinked t') (h₂ : t'.Relinked u) : t.Relinked u :=
  ⟨fun h ↦ (h₂.get? h).trans (h₁.get? h), h₂.orphans.trans h₁.orphans,
    h₂.genesis.trans h₁.genesis⟩

theorem Relinked.extends (hr : t.Relinked t') : t.Extends t' := by
  intro h b hb
  have hu := hr.get? h
  rw [hb, Option.map_some, Option.map_eq_some_iff] at hu
  exact hu

theorem Relinked.contains_eq (hr : t.Relinked t') (h : Hash) : t'.contains h = t.contains h := by
  have hu := congrArg Option.isSome (hr.get? h)
  rwa [Option.isSome_map, Option.isSome_map, ← BlockTree.contains_eq,
    ← BlockTree.contains_eq] at hu

theorem Relinked.isParent_eq (hr : t.Relinked t') : t'.IsParent = t.IsParent := by
  funext p h
  exact propext ⟨hr.symm.extends.isParent, hr.extends.isParent⟩

theorem Relinked.ancestor_eq (hr : t.Relinked t') : t'.Ancestor = t.Ancestor := by
  rw [Ancestor, Ancestor, hr.isParent_eq]

theorem Relinked.insert (hr : t.Relinked t') (h p : Hash) (time : Int64) :
    (t.insert h p time).2.Relinked (t'.insert h p time).2 := by
  have hp := hr.get? p
  rw [BlockTree.insert, BlockTree.insert, hr.contains_eq]
  split
  · exact hr
  cases hq : t.get? p with
  | none =>
    rw [hq, Option.map_none, Option.map_eq_none_iff] at hp
    rw [hp]
    exact hr
  | some q =>
    obtain ⟨q', hq', hu⟩ := hr.extends hq
    rw [hq']
    refine ⟨fun x ↦ ?_, congrArg (·.erase h) hr.orphans, hr.genesis⟩
    have hheight : q'.height = q.height := (Block.unlinked_eq_iff.mp hu).2.1
    have hg := get?_put t h ⟨h, q.height + 1, time, some p, none⟩ (t.orphans.erase h) x
    have hg' := get?_put t' h ⟨h, q'.height + 1, time, some p, none⟩ (t'.orphans.erase h) x
    rw [hg, hg', hheight]
    split
    · rfl
    · exact hr.get? x

def Keyed (t : BlockTree) : Prop := ∀ ⦃h b⦄, t.get? h = some b → b.hash = h

theorem Keyed.relinked (hk : t.Keyed) (hr : t.Relinked t') : t'.Keyed := by
  intro h b hb
  obtain ⟨b', hb', hu⟩ := hr.symm.extends hb
  exact (Block.unlinked_eq_iff.mp hu).1.symm.trans (hk hb')

theorem descend_ancestor (hk : t.Keyed) {height : UInt64} {steps : Nat} {b x : Block}
    (hb : t.get? h = some b) (hd : t.descend height steps b = .ok x) :
    t.get? x.hash = some x ∧ t.Ancestor x.hash h := by
  induction steps generalizing b h with
  | zero =>
    cases hd
    exact ⟨(hk hb).symm ▸ hb, (hk hb) ▸ .refl⟩
  | succ steps ih =>
    rw [descend] at hd
    split at hd
    · cases hp : b.parent with
      | none => simp [parentOf, parent?, hp] at hd
      | some p =>
        cases hq : t.get? p with
        | none => simp [parentOf, parent?, hp, hq] at hd
        | some q =>
          simp only [parentOf, parent?, hp, hq, Option.bind_some] at hd
          obtain ⟨hx, ha⟩ := ih hq hd
          exact ⟨hx, .tail ha ⟨b, hb, hp⟩⟩
    · cases hd
      exact ⟨(hk hb).symm ▸ hb, (hk hb) ▸ .refl⟩

theorem ancestor_of_ancestor (hk : t.Keyed) {height : UInt64} {x : Block}
    (ha : t.ancestor h height = .ok x) : t.get? x.hash = some x ∧ t.Ancestor x.hash h := by
  rw [ancestor] at ha
  split at ha
  · cases ha
  next b hb =>
    split at ha
    · cases ha
    · exact descend_ancestor hk hb ha

end BlockTree

end ChainAnchor
