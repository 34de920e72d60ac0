import ChainAnchor.Proofs.BlockTree.Overtaking
import ChainAnchor.Proofs.Node.Reliable

namespace ChainAnchor

namespace BlockTree

variable {t : BlockTree} {h p r w x : Hash} {n : Nat}

theorem Climbs.leadsTo (hr : t.Climbs h r n) : t.LeadsTo h r := by
  induction hr with
  | stop => exact .refl
  | step ha _ _ ih => exact .head ha ih

theorem Climbs.stops (hr : t.Climbs h r n) : t.Stops r := by
  induction hr with
  | stop hs => exact hs
  | step _ _ _ ih => exact ih

theorem Climbs.isOrphan (hr : t.Climbs h r n) (ho : t.isOrphan h = true) : t.isOrphan r = true := by
  induction hr with
  | stop => exact ho
  | step _ hp _ ih => exact ih hp

/-- An orphan that leads to another one leads on to it by way of orphans only. -/
theorem isOrphan_of_leadsTo (hl : t.LeadsTo p x) (ho : t.isOrphan x = true) :
    t.isOrphan p = true := by
  rcases hl.cases_head with rfl | ⟨q, ha, -⟩
  · exact ho
  · exact ha.isOrphan

/-- All orphans that a block leads to lead to the one that the walk ends at. -/
theorem Climbs.leadsTo_of_isOrphan (hr : t.Climbs h r n) (hl : t.LeadsTo h x)
    (ho : t.isOrphan x = true) : t.LeadsTo x r := by
  induction hr with
  | stop hs =>
    rcases hl.cases_head with rfl | ⟨p, ha, hpx⟩
    · exact .refl
    · cases (hs ha).symm.trans (isOrphan_of_leadsTo hpx ho)
  | step ha hp hr ih =>
    rcases hl.cases_head with rfl | ⟨p', ha', hpx⟩
    · exact .head ha hr.leadsTo
    · exact ih (ha.eq ha' ▸ hpx)

/-- An orphan is the last one that a block leads to, and waits for a block that is no orphan. -/
structure Outermost (t : BlockTree) (h r w : Hash) : Prop where
  orphanRoot? : t.orphanRoot? h = some r
  awaited? : t.awaited? h = some w
  leadsTo : t.LeadsTo h r
  last (x : Hash) : t.LeadsTo h x → t.isOrphan x = true → t.LeadsTo x r
  awaits : t.Awaits r w
  isOrphan : t.isOrphan w = false

theorem exists_outermost (hc : ¬t.Circular h) (ho : t.isOrphan h = true) :
    ∃ r w, t.Outermost h r w := by
  obtain ⟨r, n, hr⟩ := exists_climbs_iff.mpr hc
  obtain ⟨w, hw⟩ := isOrphan_iff.mp (hr.isOrphan ho)
  exact ⟨r, w, hr.orphanRoot?.2, hr.awaited?.trans hw, hr.leadsTo,
    fun x ↦ hr.leadsTo_of_isOrphan, hw, hr.stops hw⟩

theorem climbs_of_not_orphan (ho : t.isOrphan h = false) : t.Climbs h h 0 :=
  .stop (stops_of_not_orphan ho)

theorem awaited?_of_not_orphan (ho : t.isOrphan h = false) : t.awaited? h = none := by
  rw [(climbs_of_not_orphan ho).awaited?, Option.eq_none_iff_forall_ne_some]
  exact fun p hp ↦ Bool.false_ne_true (ho.symm.trans (Awaits.isOrphan hp))

theorem awaits_of_awaited? (hw : t.awaited? h = some w) :
    ∃ r, t.orphanRoot? h = some r ∧ t.Awaits r w := by
  obtain ⟨r, hr, hw⟩ := Option.bind_eq_some_iff.mp hw
  exact ⟨r, hr, hw⟩

theorem wanted?_of_not_orphan (ho : t.isOrphan h = false) : t.wanted? h = some h := by
  have hc := climbs_of_not_orphan ho
  rw [hc.wanted?, ← hc.awaited?, awaited?_of_not_orphan ho, Option.getD_none]

theorem wanted?_of_awaited? (hw : t.awaited? h = some w) : t.wanted? h = some w := by
  obtain ⟨r, hr, ha⟩ := awaits_of_awaited? hw
  rw [wanted?, hr, Option.map_some, ha, Option.getD_some]

theorem isSome_awaited?_iff (ho : t.isOrphan h = true) :
    (t.awaited? h).isSome = true ↔ ¬t.Circular h := by
  constructor
  · intro hs
    obtain ⟨w, hw⟩ := Option.isSome_iff_exists.mp hs
    rw [← isSome_wanted?_iff, wanted?_of_awaited? hw, Option.isSome_some]
  · intro hc
    obtain ⟨r, w, hw⟩ := exists_outermost hc ho
    rw [hw.awaited?, Option.isSome_some]

/-- Where the walk ends, what it leads to is the block itself if that is no orphan, and else what
the last orphan on the way waits for. -/
theorem exists_wanted (hc : ¬t.Circular h) :
    ∃ w, t.wanted? h = some w ∧ t.isOrphan w = false ∧ (t.isOrphan h = false → w = h) ∧
      (t.isOrphan h = true → ∃ r, t.Outermost h r w) := by
  cases ho : t.isOrphan h with
  | false => exact ⟨h, wanted?_of_not_orphan ho, ho, fun _ ↦ rfl, nofun⟩
  | true =>
    obtain ⟨r, w, hw⟩ := exists_outermost hc ho
    exact ⟨w, wanted?_of_awaited? hw.awaited?, hw.isOrphan, nofun, fun _ ↦ ⟨r, hw⟩⟩

theorem not_leadsTo_of_not_orphan (ho : t.isOrphan p = false) (hne : p ≠ h) : ¬t.LeadsTo p h := by
  intro hl
  rcases hl.cases_head with he | ⟨q, ha, -⟩
  · exact hne he
  · cases ho.symm.trans ha.isOrphan

theorem Acyclic.addOrphan_of_not_orphan (ha : t.Acyclic) (ho : t.isOrphan p = false)
    (hne : p ≠ h) : (t.addOrphan h p).Acyclic := by
  cases hh : t.contains h with
  | true =>
    rw [addOrphan, hh, if_pos rfl]
    exact ha
  | false => exact (acyclic_addOrphan_iff ha hh).mpr (not_leadsTo_of_not_orphan ho hne)

end BlockTree

/-- Whether a block is wanted has an answer unless the pending block leads to orphans that wait for
one another, and is another one. -/
theorem Anchor.isSome_wants?_iff {a : Anchor} {t : BlockTree} {x : Hash} :
    (a.wants? t x).isSome = true ↔ ∀ p, a.pending = some p → x = p ∨ ¬t.Circular p := by
  rw [wants?]
  cases hp : a.pending with
  | none => simp
  | some p =>
    by_cases hx : x = p
    · simp [hx]
    cases ho : t.isOrphan p with
    | false =>
      have hc := BlockTree.exists_climbs_iff.mp ⟨p, 0, BlockTree.climbs_of_not_orphan ho⟩
      simp [hx, ho, hc]
    | true => simp [hx, ho, BlockTree.isSome_awaited?_iff ho]

namespace Node

open BlockTree

variable {n : Node} {c d : Checkpoint} {x : Hash}

theorem peers_process_of_unknown {w : Hash} (hd : c.check n.anchor.network.masterKey = .ok d)
    (hc : n.tree.contains d.block = false) (hw : n.tree.wanted? d.block = some w)
    (peer : PeerId) :
    (n.process c (some peer)).2.peers =
      (n.peers.push peer (.blocks n.tree.best d.block)).push peer (.data [w]) := by
  have hw' : { n with anchor := n.anchor.postpone d.block d }.tree.wanted? d.block = some w := hw
  rw [process_of_unknown hd hc]
  dsimp only [await, request]
  rw [hw']
  rfl

/-- A node that waits for a block recognizes it and the one that it asks for. -/
theorem wants_postpone_iff {h w : Hash} (hc : ¬n.tree.Circular h) (hw : n.tree.wanted? h = some w) :
    (n.anchor.postpone h d).wants n.tree x = true ↔ x = h ∨ x = w := by
  rw [Anchor.wants, Anchor.wants?, Anchor.postpone]
  cases ho : n.tree.isOrphan h with
  | false =>
    obtain rfl := Option.some.inj ((wanted?_of_not_orphan ho).symm.trans hw)
    by_cases hx : x = h <;> simp [hx, ho]
  | true =>
    obtain ⟨r, w', hout⟩ := exists_outermost hc ho
    obtain rfl := Option.some.inj ((wanted?_of_awaited? hout.awaited?).symm.trans hw)
    by_cases hx : x = h <;> simp [hx, ho, hout.awaited?, eq_comm]

/-- Where no orphans wait for one another a node asks for the block that it recognizes.  What an
orphan waits for is the parent of the last orphan that it leads to, and that is no orphan; a
checkpoint that is signed and whose block is not known is answered by a request for that parent,
or for the block itself if it is no orphan, and no third block is recognized afterwards. -/
theorem request_of_acyclic (n : Node) (ha : n.tree.Acyclic) :
    (∀ h, n.tree.isOrphan h = false →
      n.tree.orphanRoot? h = some h ∧ n.tree.awaited? h = none) ∧
    (∀ h, n.tree.isOrphan h = true → ∃ r w, n.tree.Outermost h r w) ∧
    ∀ c d peer, c.check n.anchor.network.masterKey = .ok d →
      n.tree.contains d.block = false → ∃ w,
        (n.process c (some peer)).1 = .ok false ∧
        (n.process c (some peer)).2.tree = n.tree ∧
        (n.process c (some peer)).2.peers =
          (n.peers.push peer (.blocks n.tree.best d.block)).push peer (.data [w]) ∧
        n.tree.isOrphan w = false ∧
        (n.tree.isOrphan d.block = false → w = d.block) ∧
        (n.tree.isOrphan d.block = true → ∃ r, n.tree.Outermost d.block r w) ∧
        ∀ x, (n.process c (some peer)).2.anchor.wants n.tree x = true ↔
          x = d.block ∨ x = w := by
  have hc := acyclic_iff.mp ha
  refine ⟨fun h ho ↦ ⟨(climbs_of_not_orphan ho).orphanRoot?.2, awaited?_of_not_orphan ho⟩,
    fun h ho ↦ exists_outermost (hc h) ho, fun c d peer hd hu ↦ ?_⟩
  obtain ⟨w, hw, ho, hself, hout⟩ := exists_wanted (hc d.block)
  refine ⟨w, ?_, ?_, peers_process_of_unknown hd hu hw peer, ho, hself, hout, fun x ↦ ?_⟩
  all_goals rw [process_of_unknown hd hu]
  · exact congrArg Chain.tree (n.await_kept d (some peer)).chain
  · rw [await_anchor]
    exact wants_postpone_iff (hc d.block) hw

def suspended : List BlockTree.Event :=
  [.addOrphan (Digest.ofNatLE 3) (Digest.ofNatLE 2),
    .addOrphan (Digest.ofNatLE 2) (Digest.ofNatLE 1)]

theorem acyclic_suspended : (stationedIn suspended).tree.Acyclic := by
  have ha := acyclic_withGenesis (Digest.ofNatLE 0) 0
  have h₃ := ha.addOrphan_of_not_orphan (h := Digest.ofNatLE 3) (p := Digest.ofNatLE 2)
    (by decide +kernel) (by decide +kernel)
  exact h₃.addOrphan_of_not_orphan (h := Digest.ofNatLE 2) (p := Digest.ofNatLE 1)
    (by decide +kernel) (by decide +kernel)

theorem request_suspended :
    let n := stationedIn suspended
    let c := Checkpoint.endorsed (Digest.ofNatLE 3)
    n.tree.Acyclic ∧ n.tree.Reachable ∧ c.check n.anchor.network.masterKey = .ok c ∧
      n.tree.contains c.block = false ∧
      (n.process c (some 5)).2.peers =
        (n.peers.push 5 (.blocks n.tree.best c.block)).push 5 (.data [Digest.ofNatLE 1]) ∧
      ∀ x, (n.process c (some 5)).2.anchor.wants n.tree x = true ↔
        x = Digest.ofNatLE 3 ∨ x = Digest.ofNatLE 1 := by
  intro n c
  have hd : c.check n.anchor.network.masterKey = .ok c :=
    check_stationed _ (by decide +kernel)
  have hu : n.tree.contains c.block = false := by decide +kernel
  have ho : n.tree.isOrphan c.block = true := by decide +kernel
  have hone : n.tree.awaited? c.block = some (Digest.ofNatLE 1) := by decide +kernel
  obtain ⟨-, -, hask⟩ := request_of_acyclic n acyclic_suspended
  obtain ⟨w, -, -, hp, -, -, hout, hw⟩ := hask c c 5 hd hu
  obtain ⟨r, hr⟩ := hout ho
  obtain rfl := Option.some.inj (hr.awaited?.symm.trans hone)
  exact ⟨acyclic_suspended, ⟨_, _, _, rfl⟩, hd, hu, hp, hw⟩

/-- What an orphan waits for is in the tree exactly if it was added while the last orphan on the way
to it waited for it already, where orphans are recorded with missing parents only.  So it is for a
block of the tree, then and only then, that a node asks to connect the block of a checkpoint. -/
theorem contains_awaited_iff (g : Hash) (time : Int64) (es : List BlockTree.Event)
    (hf : (withGenesis g time).Fitting es) :
    ∀ h w, ((withGenesis g time).run es).awaited? h = some w →
      ∃ r, ((withGenesis g time).run es).orphanRoot? h = some r ∧
        ((withGenesis g time).run es).Awaits r w ∧
        (((withGenesis g time).run es).contains w = true ↔
          (withGenesis g time).Overtakes es r w) ∧
        ∀ (n : Node) c d peer, n.tree = (withGenesis g time).run es →
          c.check n.anchor.network.masterKey = .ok d → d.block = h →
          n.tree.contains h = false → (n.process c (some peer)).2.peers =
            (n.peers.push peer (.blocks n.tree.best h)).push peer (.data [w]) := by
  intro h w hw
  obtain ⟨r, hr, ha⟩ := awaits_of_awaited? hw
  refine ⟨r, hr, ha, contains_iff_overtakes hf ha, fun n c d peer ht hd hdh hu ↦ ?_⟩
  subst hdh
  rw [← ht] at hw
  exact peers_process_of_unknown hd hu (wanted?_of_awaited? hw) peer

def overtaken : List BlockTree.Event :=
  [.addOrphan (Digest.ofNatLE 2) (Digest.ofNatLE 1),
    .addOrphan (Digest.ofNatLE 5) (Digest.ofNatLE 4),
    .insert (Digest.ofNatLE 1) (Digest.ofNatLE 0) 30]

theorem fitting_overtaken : (withGenesis (Digest.ofNatLE 0) 0).Fitting overtaken :=
  ⟨show BlockTree.contains _ _ = false by decide +kernel,
    show BlockTree.contains _ _ = false by decide +kernel, trivial, trivial⟩

theorem contains_awaited_iff_overtaken :
    let t := withGenesis (Digest.ofNatLE 0) 0
    t.Fitting overtaken ∧
      (t.run overtaken).awaited? (Digest.ofNatLE 2) = some (Digest.ofNatLE 1) ∧
      t.Overtakes overtaken (Digest.ofNatLE 2) (Digest.ofNatLE 1) ∧
      (t.run overtaken).awaited? (Digest.ofNatLE 5) = some (Digest.ofNatLE 4) ∧
      ¬t.Overtakes overtaken (Digest.ofNatLE 5) (Digest.ofNatLE 4) := by
  intro t
  have h₂ : (t.run overtaken).awaited? (Digest.ofNatLE 2) = some (Digest.ofNatLE 1) := by
    decide +kernel
  have h₅ : (t.run overtaken).awaited? (Digest.ofNatLE 5) = some (Digest.ofNatLE 4) := by
    decide +kernel
  have hr₂ : (t.run overtaken).orphanRoot? (Digest.ofNatLE 2) = some (Digest.ofNatLE 2) := by
    decide +kernel
  have hr₅ : (t.run overtaken).orphanRoot? (Digest.ofNatLE 5) = some (Digest.ofNatLE 5) := by
    decide +kernel
  have hiff := contains_awaited_iff (Digest.ofNatLE 0) 0 overtaken fitting_overtaken
  obtain ⟨r, hr, -, hover₂, -⟩ := hiff _ _ h₂
  obtain rfl := Option.some.inj (hr.symm.trans hr₂)
  obtain ⟨r, hr, -, hover₅, -⟩ := hiff _ _ h₅
  obtain rfl := Option.some.inj (hr.symm.trans hr₅)
  have hc₄ : (t.run overtaken).contains (Digest.ofNatLE 4) = false := by decide +kernel
  refine ⟨fitting_overtaken, h₂, hover₂.mp (by decide +kernel), h₅, fun ho ↦ ?_⟩
  cases hc₄.symm.trans (hover₅.mpr ho)

theorem acyclic_overtaken : (stationedIn overtaken).tree.Acyclic := by
  have ha := acyclic_withGenesis (Digest.ofNatLE 0) 0
  have h₂ := ha.addOrphan_of_not_orphan (h := Digest.ofNatLE 2) (p := Digest.ofNatLE 1)
    (by decide +kernel) (by decide +kernel)
  have h₅ := h₂.addOrphan_of_not_orphan (h := Digest.ofNatLE 5) (p := Digest.ofNatLE 4)
    (by decide +kernel) (by decide +kernel)
  exact h₅.mono fun _ _ ↦ awaits_of_insert

/-- An orphan still waits for its parent after the parent has been added, and a node to which a
checkpoint for the orphan comes asks for the parent. -/
theorem contains_awaited_overtaken :
    let n := stationedIn overtaken
    let c := Checkpoint.endorsed (Digest.ofNatLE 2)
    (withGenesis (Digest.ofNatLE 0) 0).Fitting overtaken ∧ n.tree.Acyclic ∧
      n.tree.awaited? (Digest.ofNatLE 2) = some (Digest.ofNatLE 1) ∧
      n.tree.contains (Digest.ofNatLE 1) = true ∧
      c.check n.anchor.network.masterKey = .ok c ∧ n.tree.contains c.block = false ∧
      (n.process c (some 5)).2.peers =
        (n.peers.push 5 (.blocks n.tree.best c.block)).push 5 (.data [Digest.ofNatLE 1]) := by
  intro n c
  have hd : c.check n.anchor.network.masterKey = .ok c :=
    check_stationed _ (by decide +kernel)
  have hu : n.tree.contains c.block = false := by decide +kernel
  have hw : n.tree.awaited? c.block = some (Digest.ofNatLE 1) := by decide +kernel
  exact ⟨fitting_overtaken, acyclic_overtaken, hw, by decide +kernel, hd, hu,
    peers_process_of_unknown hd hu (wanted?_of_awaited? hw) 5⟩

end Node

end ChainAnchor
