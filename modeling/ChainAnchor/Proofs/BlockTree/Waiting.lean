import ChainAnchor.Proofs.BlockTree.Reachable
import Mathlib.Data.List.Chain
import Mathlib.Data.List.Perm.Subperm

namespace ChainAnchor.BlockTree

variable {t t' : BlockTree} {h p q r x y : Hash} {n steps : Nat} {time : Int64}

def Awaits (t : BlockTree) (h p : Hash) : Prop := t.orphans[h]? = some p

/-- The block itself or one that it comes to by way of orphans, from child to parent. -/
def LeadsTo (t : BlockTree) : Hash → Hash → Prop := Relation.ReflTransGen t.Awaits

/-- A block leads to orphans that wait for one another. -/
def Circular (t : BlockTree) (h : Hash) : Prop :=
  ∃ x, t.LeadsTo h x ∧ Relation.TransGen t.Awaits x x

def Stops (t : BlockTree) (h : Hash) : Prop := ∀ ⦃p⦄, t.Awaits h p → t.isOrphan p = false

/-- Where the walk from orphan to orphan ends, and after how many steps, whatever their number. -/
inductive Climbs (t : BlockTree) : Hash → Hash → Nat → Prop
  | stop {h : Hash} : t.Stops h → Climbs t h h 0
  | step {h p r : Hash} {n : Nat} : t.Awaits h p → t.isOrphan p = true → Climbs t p r n →
      Climbs t h r (n + 1)

theorem isOrphan_iff : t.isOrphan h = true ↔ ∃ p, t.Awaits h p := by
  rw [isOrphan, Std.ExtTreeMap.contains_eq_isSome_getElem?, Option.isSome_iff_exists]
  rfl

theorem Awaits.isOrphan (ha : t.Awaits h p) : t.isOrphan h = true := isOrphan_iff.mpr ⟨p, ha⟩

theorem Awaits.eq (hp : t.Awaits h p) (hq : t.Awaits h q) : p = q :=
  Option.some.inj (hp.symm.trans hq)

theorem stops_of_not_orphan (ho : t.isOrphan h = false) : t.Stops h := by
  intro p ha
  rw [ha.isOrphan] at ho
  cases ho

theorem stops_or_step (t : BlockTree) (h : Hash) :
    t.Stops h ∨ ∃ p, t.Awaits h p ∧ t.isOrphan p = true := by
  by_cases hs : t.Stops h
  · exact Or.inl hs
  · rw [Stops] at hs
    push Not at hs
    obtain ⟨p, ha, ho⟩ := hs
    exact Or.inr ⟨p, ha, by simpa using ho⟩

theorem climb?_of_stops (hs : t.Stops h) (steps : Nat) : t.climb? steps h = some h := by
  cases hp : t.orphans[h]? with
  | none => cases steps <;> rw [climb?, hp]
  | some p =>
    have ho : t.isOrphan p = false := hs hp
    cases steps <;> rw [climb?, hp] <;> simp only [ho, Bool.false_eq_true, if_false]

theorem climb?_zero (ha : t.Awaits h p) (ho : t.isOrphan p = true) : t.climb? 0 h = none := by
  rw [climb?, ha]
  simp only [ho, if_true]

theorem climb?_succ (ha : t.Awaits h p) (ho : t.isOrphan p = true) (steps : Nat) :
    t.climb? (steps + 1) h = t.climb? steps p := by
  rw [climb?, ha]
  simp only [ho, if_true]

/-- Going from orphan to orphan for a number of steps at most is the walk, if it takes no more. -/
theorem climb?_eq_some_iff : t.climb? steps h = some r ↔ ∃ n ≤ steps, t.Climbs h r n := by
  constructor
  · intro hr
    induction steps generalizing h with
    | zero =>
      rcases t.stops_or_step h with hs | ⟨p, ha, ho⟩
      · rw [climb?_of_stops hs] at hr
        cases hr
        exact ⟨0, Nat.le_refl 0, .stop hs⟩
      · rw [climb?_zero ha ho] at hr
        cases hr
    | succ steps ih =>
      rcases t.stops_or_step h with hs | ⟨p, ha, ho⟩
      · rw [climb?_of_stops hs] at hr
        cases hr
        exact ⟨0, Nat.zero_le _, .stop hs⟩
      · rw [climb?_succ ha ho] at hr
        obtain ⟨n, hn, hc⟩ := ih hr
        exact ⟨n + 1, Nat.succ_le_succ hn, .step ha ho hc⟩
  · rintro ⟨n, hn, hc⟩
    induction hc generalizing steps with
    | stop hs => exact climb?_of_stops hs steps
    | step ha ho _ ih =>
      cases steps with
      | zero => cases hn
      | succ steps =>
        rw [climb?_succ ha ho]
        exact ih (Nat.le_of_succ_le_succ hn)

/-- Steps that do not lead to an end lead through as many orphans. -/
theorem exists_isChain_of_climb? (hn : t.climb? steps h = none) :
    ∃ l : List Hash, l.length = steps + 1 ∧ (h :: l).IsChain t.Awaits ∧
      ∀ x ∈ h :: l, t.isOrphan x = true := by
  induction steps generalizing h with
  | zero =>
    rcases t.stops_or_step h with hs | ⟨p, ha, ho⟩
    · rw [climb?_of_stops hs] at hn
      cases hn
    · refine ⟨[p], rfl, List.isChain_pair.mpr ha, ?_⟩
      simp [ha.isOrphan, ho]
  | succ steps ih =>
    rcases t.stops_or_step h with hs | ⟨p, ha, ho⟩
    · rw [climb?_of_stops hs] at hn
      cases hn
    · rw [climb?_succ ha ho] at hn
      obtain ⟨l, hl, hc, hall⟩ := ih hn
      refine ⟨p :: l, congrArg (· + 1) hl, List.isChain_cons_cons.mpr ⟨ha, hc⟩, ?_⟩
      exact List.forall_mem_cons.mpr ⟨ha.isOrphan, hall⟩

theorem length_le_of_orphans {l : List Hash} (hd : l.Nodup) (ho : ∀ x ∈ l, t.isOrphan x = true) :
    l.length ≤ t.orphans.size := by
  rw [← Std.ExtTreeMap.length_keys]
  refine (List.subperm_of_subset hd fun x hx ↦ ?_).length_le
  exact Std.ExtTreeMap.mem_keys.mpr (Std.ExtTreeMap.mem_iff_contains.mpr (ho x hx))

/-- Where no orphans wait for one another the walk ends before it has passed all of them: no orphan
can come up twice. -/
theorem exists_climbs (hc : ¬t.Circular h) : ∃ r, ∃ n ≤ t.orphans.size, t.Climbs h r n := by
  suffices hs : ∃ r, t.climb? t.orphans.size h = some r by
    obtain ⟨r, hr⟩ := hs
    exact ⟨r, climb?_eq_some_iff.mp hr⟩
  rw [← Option.isSome_iff_exists, Option.isSome_iff_ne_none]
  intro hn
  obtain ⟨l, hl, hchain, ho⟩ := exists_isChain_of_climb? hn
  have hp : (h :: l).Pairwise (Relation.TransGen t.Awaits) :=
    (hchain.imp fun _ _ ↦ Relation.TransGen.single).pairwise
  have hreach : ∀ x ∈ h :: l, t.LeadsTo h x := by
    intro x hx
    rcases List.mem_cons.mp hx with rfl | hx
    · exact .refl
    · exact (List.rel_of_pairwise_cons hp hx).to_reflTransGen
  -- an orphan that came up twice would wait for itself
  have hd : (h :: l).Nodup := by
    refine hp.imp_of_mem fun hx _ hxy he ↦ ?_
    subst he
    exact hc ⟨_, hreach _ hx, hxy⟩
  have hle := length_le_of_orphans hd ho
  rw [List.length_cons] at hle
  omega

theorem Circular.exists_parent (hc : t.Circular h) : ∃ p, t.Awaits h p ∧ t.Circular p := by
  obtain ⟨x, hx, hcycle⟩ := hc
  rcases hx.cases_head with rfl | ⟨p, ha, hpx⟩
  · obtain ⟨p, ha, hp⟩ := Relation.TransGen.head'_iff.mp hcycle
    exact ⟨p, ha, h, hp, hcycle⟩
  · exact ⟨p, ha, x, hpx, hcycle⟩

/-- Where orphans wait for one another there is always another one to go on to. -/
theorem Circular.not_climbs (hc : t.Circular h) : ¬t.Climbs h r n := by
  intro hr
  induction hr with
  | stop hs =>
    obtain ⟨p, ha, hp⟩ := hc.exists_parent
    obtain ⟨q, haq, -⟩ := hp.exists_parent
    have ho := hs ha
    rw [haq.isOrphan] at ho
    cases ho
  | step ha _ _ ih =>
    obtain ⟨p, hap, hp⟩ := hc.exists_parent
    exact ih (ha.eq hap ▸ hp)

theorem exists_climbs_iff : (∃ r n, t.Climbs h r n) ↔ ¬t.Circular h := by
  constructor
  · rintro ⟨r, n, hr⟩ hc
    exact hc.not_climbs hr
  · intro hc
    obtain ⟨r, n, -, hr⟩ := exists_climbs hc
    exact ⟨r, n, hr⟩

theorem Climbs.unique {m : Nat} (hr : t.Climbs h r n) (hq : t.Climbs h q m) : r = q ∧ n = m := by
  induction hr generalizing m with
  | stop hs =>
    cases hq with
    | stop => exact ⟨rfl, rfl⟩
    | step ha ho => cases (hs ha).symm.trans ho
  | step ha ho _ ih =>
    cases hq with
    | stop hs => cases (hs ha).symm.trans ho
    | step ha' _ hq =>
      obtain rfl := ha.eq ha'
      obtain ⟨rfl, rfl⟩ := ih hq
      exact ⟨rfl, rfl⟩

/-- The walk takes no more steps than there are orphans, so it is taken to its end. -/
theorem Climbs.orphanRoot? (hr : t.Climbs h r n) :
    n ≤ t.orphans.size ∧ t.orphanRoot? h = some r := by
  obtain ⟨q, m, hm, hq⟩ := exists_climbs (exists_climbs_iff.mp ⟨r, n, hr⟩)
  obtain ⟨rfl, rfl⟩ := hr.unique hq
  exact ⟨hm, climb?_eq_some_iff.mpr ⟨n, hm, hr⟩⟩

theorem Climbs.awaited? (hr : t.Climbs h r n) : t.awaited? h = t.orphans[r]? := by
  rw [BlockTree.awaited?, hr.orphanRoot?.2, Option.bind_some]

theorem Climbs.wanted? (hr : t.Climbs h r n) : t.wanted? h = some (t.orphans[r]?.getD h) := by
  rw [BlockTree.wanted?, hr.orphanRoot?.2, Option.map_some]

theorem isSome_wanted?_iff : (t.wanted? h).isSome = true ↔ ¬t.Circular h := by
  constructor
  · intro hs
    rw [BlockTree.wanted?, Option.isSome_map] at hs
    obtain ⟨r, hr⟩ := Option.isSome_iff_exists.mp hs
    obtain ⟨n, -, hc⟩ := climb?_eq_some_iff.mp hr
    exact exists_climbs_iff.mp ⟨r, n, hc⟩
  · intro hc
    obtain ⟨r, n, hr⟩ := exists_climbs_iff.mpr hc
    rw [hr.wanted?, Option.isSome_some]

def Acyclic (t : BlockTree) : Prop := ∀ x, ¬Relation.TransGen t.Awaits x x

theorem acyclic_iff : t.Acyclic ↔ ∀ h, ¬t.Circular h :=
  ⟨fun ha _ ⟨x, _, hx⟩ ↦ ha x hx, fun hc x hx ↦ hc x ⟨x, .refl, hx⟩⟩

theorem Acyclic.mono (ha : t.Acyclic) (h' : ∀ x y, t'.Awaits x y → t.Awaits x y) :
    t'.Acyclic := fun x hx ↦ ha x (Relation.TransGen.mono h' _ _ hx)

theorem not_awaits_withGenesis (g : Hash) (time : Int64) (h p : Hash) :
    ¬(withGenesis g time).Awaits h p := by
  rw [Awaits, withGenesis, Std.ExtTreeMap.getElem?_empty]
  exact (Option.some_ne_none p).symm

theorem acyclic_withGenesis (g : Hash) (time : Int64) : (withGenesis g time).Acyclic := by
  intro x hx
  obtain ⟨p, ha, -⟩ := Relation.TransGen.head'_iff.mp hx
  exact not_awaits_withGenesis g time x p ha

theorem awaits_of_insert (ha : (t.insert h p time).2.Awaits x y) : t.Awaits x y := by
  rcases insert_cases t h p time with ⟨e, he⟩ | ⟨q, t', -, -, he, -, ho, -, -⟩
  · rwa [he] at ha
  · rw [he, Awaits, ho, Std.ExtTreeMap.getElem?_erase] at ha
    split at ha
    · cases ha
    · exact ha

theorem Relinked.awaits_eq (hr : t.Relinked t') : t'.Awaits = t.Awaits := by
  funext x y
  rw [Awaits, Awaits, hr.orphans]

theorem awaits_addOrphan_iff (hh : t.contains h = false) :
    (t.addOrphan h p).Awaits x y ↔ if h = x then p = y else t.Awaits x y := by
  rw [addOrphan, hh]
  simp only [Bool.false_eq_true, if_false, Awaits, Std.ExtTreeMap.getElem?_insert,
    Std.compare_eq_iff_eq]
  split
  · exact Option.some_inj
  · exact Iff.rfl

/-- A way that was new with an orphan goes on from its parent, where it was last on it. -/
theorem leadsTo_of_addOrphan (hh : t.contains h = false)
    (ha : Relation.TransGen (t.addOrphan h p).Awaits x y) :
    Relation.TransGen t.Awaits x y ∨ t.LeadsTo x h ∧ t.LeadsTo p y := by
  induction ha with
  | single ha =>
    rw [awaits_addOrphan_iff hh] at ha
    split at ha
    next he => exact Or.inr ⟨he ▸ .refl, ha ▸ .refl⟩
    next => exact Or.inl (.single ha)
  | @tail y z hxy ha ih =>
    rw [awaits_addOrphan_iff hh] at ha
    split at ha
    next he =>
      subst he ha
      rcases ih with hxh | ⟨hxh, -⟩
      · exact Or.inr ⟨hxh.to_reflTransGen, .refl⟩
      · exact Or.inr ⟨hxh, .refl⟩
    next =>
      rcases ih with hxy | ⟨hxh, hpy⟩
      · exact Or.inl (hxy.tail ha)
      · exact Or.inr ⟨hxh, hpy.tail ha⟩

theorem LeadsTo.addOrphan (hl : t.LeadsTo x h) (hh : t.contains h = false) (p : Hash) :
    (t.addOrphan h p).LeadsTo x h := by
  induction hl using Relation.ReflTransGen.head_induction_on with
  | refl => exact .refl
  | @head x y hxy _ ih =>
    by_cases hx : h = x
    · exact hx ▸ .refl
    · exact .head ((awaits_addOrphan_iff hh).mpr (by rwa [if_neg hx])) ih

theorem acyclic_addOrphan_iff (ht : t.Acyclic) (hh : t.contains h = false) :
    (t.addOrphan h p).Acyclic ↔ ¬t.LeadsTo p h := by
  constructor
  · intro ha hp
    have hnew : (t.addOrphan h p).Awaits h p := (awaits_addOrphan_iff hh).mpr (by rw [if_pos rfl])
    exact ha h (.head' hnew (hp.addOrphan hh p))
  · intro hp x hx
    rcases leadsTo_of_addOrphan hh hx with hx | ⟨hxh, hpx⟩
    · exact ht x hx
    · exact hp (hpx.trans hxh)

theorem run_append (t : BlockTree) (es es' : List Event) :
    t.run (es ++ es') = (t.run es).run es' := List.foldl_append

theorem run_concat (t : BlockTree) (es : List Event) (e : Event) :
    t.run (es ++ [e]) = e.apply (t.run es) := t.run_append es [e]

theorem acyclic_run_iff (ht : t.Acyclic) (es : List Event) :
    (∀ pre post, es = pre ++ post → (t.run pre).Acyclic) ↔
      ∀ pre h p post, es = pre ++ .addOrphan h p :: post → (t.run pre).contains h = false →
        ¬(t.run pre).LeadsTo p h := by
  constructor
  · intro ha pre h p post hes hh
    have hpre := ha pre _ hes
    have hnext := ha (pre ++ [.addOrphan h p]) post (by rw [hes, List.append_assoc]; rfl)
    rw [run_concat] at hnext
    exact (acyclic_addOrphan_iff hpre hh).mp hnext
  · intro hadd pre
    induction pre using List.reverseRecOn with
    | nil => exact fun _ _ ↦ ht
    | append_singleton pre e ih =>
      intro post hes
      rw [List.append_assoc] at hes
      have hpre := ih _ hes
      rw [run_concat]
      cases e with
      | insert h p time => exact hpre.mono fun _ _ ↦ awaits_of_insert
      | setBest h =>
        refine hpre.mono fun x y ha ↦ ?_
        rwa [Event.apply, (setBest_relinked _ h).awaits_eq] at ha
      | addOrphan h p =>
        cases hh : (t.run pre).contains h with
        | true =>
          rw [Event.apply, addOrphan, hh, if_pos rfl]
          exact hpre
        | false => exact (acyclic_addOrphan_iff hpre hh).mpr (hadd pre h p post hes hh)

/-- The walk from orphan to orphan ends throughout a run, from whatever block it starts, exactly if
no orphan is recorded with a parent that leads back to it.  In each tree it ends for the blocks that
lead to no orphans that wait for one another, and it takes no more steps than there are orphans. -/
theorem climbs_run_iff (g : Hash) (time : Int64) (es : List Event) :
    ((∀ pre post, es = pre ++ post → ∀ h, ∃ r n, ((withGenesis g time).run pre).Climbs h r n) ↔
      ∀ pre h p post, es = pre ++ .addOrphan h p :: post →
        ((withGenesis g time).run pre).contains h = false →
          ¬((withGenesis g time).run pre).LeadsTo p h) ∧
    ∀ h, ((∃ r n, ((withGenesis g time).run es).Climbs h r n) ↔
        ¬((withGenesis g time).run es).Circular h) ∧
      ∀ r n, ((withGenesis g time).run es).Climbs h r n →
        n ≤ ((withGenesis g time).run es).orphans.size ∧
          ((withGenesis g time).run es).orphanRoot? h = some r ∧
          ((withGenesis g time).run es).awaited? h = ((withGenesis g time).run es).orphans[r]? := by
  refine ⟨?_, fun h ↦ ⟨exists_climbs_iff, fun r n hr ↦ ?_⟩⟩
  · rw [← acyclic_run_iff (acyclic_withGenesis g time)]
    simp only [exists_climbs_iff, acyclic_iff]
  · exact ⟨hr.orphanRoot?.1, hr.orphanRoot?.2, hr.awaited?⟩

/-- An orphan that is its own parent is recorded, and the walk from it does not end. -/
theorem not_climbs_self :
    let t := (withGenesis (Digest.ofNatLE 0) 0).run
      [.addOrphan (Digest.ofNatLE 1) (Digest.ofNatLE 1)]
    t.isOrphan (Digest.ofNatLE 1) = true ∧ ¬∃ r n, t.Climbs (Digest.ofNatLE 1) r n := by
  intro t
  have ha : t.Awaits (Digest.ofNatLE 1) (Digest.ofNatLE 1) := by
    rw [Awaits]
    decide +kernel
  exact ⟨ha.isOrphan, fun hr ↦ exists_climbs_iff.mp hr ⟨_, .refl, .single ha⟩⟩

end ChainAnchor.BlockTree
