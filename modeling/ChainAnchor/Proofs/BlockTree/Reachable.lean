import ChainAnchor.Proofs.BlockTree.Relinking

namespace ChainAnchor.BlockTree

variable {t : BlockTree} {h p x : Hash}

inductive Event
  | insert (h parent : Hash) (time : Int64)
  | addOrphan (h parent : Hash)
  | setBest (h : Hash)

def Event.apply (t : BlockTree) : Event → BlockTree
  | insert h parent time => (t.insert h parent time).2
  | addOrphan h parent => t.addOrphan h parent
  | setBest h => (t.setBest h).2

def run (t : BlockTree) (es : List Event) : BlockTree := es.foldl Event.apply t

def Reachable (t : BlockTree) : Prop := ∃ g time es, t = (withGenesis g time).run es

theorem Event.apply_extends (t : BlockTree) (e : Event) : t.Extends (e.apply t) := by
  cases e with
  | insert h p time => exact insert_extends t h p time
  | addOrphan h p => exact addOrphan_extends t h p
  | setBest h => exact (setBest_relinked t h).extends

theorem run_extends (t : BlockTree) (es : List Event) : t.Extends (t.run es) := by
  induction es generalizing t with
  | nil => exact .refl t
  | cons e es ih => exact (e.apply_extends t).trans (ih _)

theorem Keyed.apply (hk : t.Keyed) (e : Event) : (e.apply t).Keyed := by
  cases e with
  | insert h p time =>
    rcases insert_cases t h p time with ⟨e, he⟩ | ⟨q, t', -, -, he, hg, -⟩
    · rw [Event.apply, he]
      exact hk
    · rw [Event.apply, he]
      intro x b hb
      rw [hg] at hb
      split at hb
      next hx => cases hb; exact hx
      next => exact hk hb
  | addOrphan h p =>
    rw [Event.apply, addOrphan]
    split <;> exact hk
  | setBest h => exact hk.relinked (setBest_relinked t h)

theorem Reachable.apply (hr : t.Reachable) (e : Event) : (e.apply t).Reachable := by
  obtain ⟨g, time, es, rfl⟩ := hr
  exact ⟨g, time, es ++ [e], by simp [run]⟩

theorem Reachable.run (hr : t.Reachable) (es : List Event) : (t.run es).Reachable := by
  induction es generalizing t with
  | nil => exact hr
  | cons e es ih => exact ih (hr.apply e)

theorem Reachable.keyed (hr : t.Reachable) : t.Keyed := by
  obtain ⟨g, time, es, rfl⟩ := hr
  have hk : ∀ t : BlockTree, t.Keyed → (t.run es).Keyed := by
    induction es with
    | nil => exact fun _ hk ↦ hk
    | cons e es ih => exact fun t hk ↦ ih _ (hk.apply e)
  exact hk _ (rooted_withGenesis g time).keyed

theorem Sound.addOrphan (hs : t.Sound) (h p : Hash) : (t.addOrphan h p).Sound := by
  have hr := hs.toRooted.addOrphan h p
  rw [BlockTree.addOrphan] at hr ⊢
  split at hr
  next hh => rwa [if_pos hh]
  next hh =>
    rw [if_neg hh]
    exact ⟨hr, hs.best, hs.next⟩

theorem Sound.insert (hs : t.Sound) (h p : Hash) (time : Int64)
    (hl : t.level p + 1 < UInt64.size) : (t.insert h p time).2.Sound := by
  refine ⟨hs.toRooted.insert h p time hl, ?_, hs.linked.next_insert h p time⟩
  have hext := insert_extends t h p time
  rcases insert_cases t h p time with ⟨e, he⟩ | ⟨q, t', -, -, he, -, -, -, hbest⟩
  · rw [he]
    exact hs.best
  · rw [he] at hext ⊢
    exact hbest ▸ hext.contains hs.best

theorem Sound.setBest (hs : t.Sound) (h : Hash) : (t.setBest h).2.Sound := by
  cases hh : t.get? h with
  | none => rwa [BlockTree.setBest, hh]
  | some b =>
    obtain ⟨t', he, -, -, hs'⟩ := hs.exists_setBest (contains_iff.mpr ⟨b, hh⟩)
    rwa [he]

def Below (t : BlockTree) (n : Nat) : Prop := ∀ h, t.level h ≤ n

theorem Below.apply {n : Nat} (hb : t.Below n) (e : Event) : (e.apply t).Below (n + 1) := by
  intro x
  cases e with
  | insert h p time =>
    rcases insert_cases t h p time with ⟨e, he⟩ | ⟨q, t', -, hq, he, hg, -⟩
    · rw [Event.apply, he]
      exact Nat.le_succ_of_le (hb x)
    · rw [Event.apply, he, level, hg]
      split
      · have hp := hb p
        rw [level_of_get? hq] at hp
        change (q.height + 1).toNat ≤ n + 1
        rw [UInt64.toNat_add]
        exact Nat.le_trans (Nat.mod_le _ _) (Nat.add_le_add_right hp 1)
      · exact Nat.le_succ_of_le (hb x)
  | addOrphan h p =>
    rw [Event.apply, BlockTree.addOrphan]
    split <;> exact Nat.le_succ_of_le (hb x)
  | setBest h =>
    rw [Event.apply, (setBest_relinked t h).level_eq]
    exact Nat.le_succ_of_le (hb x)

theorem Sound.apply {n : Nat} (hs : t.Sound) (hb : t.Below n) (hn : n + 1 < UInt64.size)
    (e : Event) : (e.apply t).Sound := by
  cases e with
  | insert h p time =>
    exact hs.insert h p time (Nat.lt_of_le_of_lt (Nat.add_le_add_right (hb p) 1) hn)
  | addOrphan h p => exact hs.addOrphan h p
  | setBest h => exact hs.setBest h

theorem Sound.run {n : Nat} (hs : t.Sound) (hb : t.Below n) (es : List Event)
    (hn : n + es.length < UInt64.size) : (t.run es).Sound := by
  induction es generalizing t n with
  | nil => exact hs
  | cons e es ih =>
    rw [List.length_cons] at hn
    exact ih (hs.apply hb (by omega) e) (hb.apply e) (by omega)

theorem sound_withGenesis (g : Hash) (time : Int64) : (withGenesis g time).Sound := by
  have hr := rooted_withGenesis g time
  have hg : (withGenesis g time).get? g = some ⟨g, 0, time, none, none⟩ :=
    get?_withGenesis.mpr ⟨rfl, rfl⟩
  refine ⟨hr, contains_iff.mpr ⟨_, hg⟩, fun x c ↦ ?_⟩
  have hp : ¬ (withGenesis g time).IsParent x c := by
    rintro ⟨b, hb, hp⟩
    obtain ⟨-, rfl⟩ := get?_withGenesis.mp hb
    cases hp
  refine iff_of_false (fun hn ↦ ?_) fun hc ↦ hp hc.1
  obtain ⟨b, hb, hn⟩ := Option.bind_eq_some_iff.mp hn
  obtain ⟨-, rfl⟩ := get?_withGenesis.mp hb
  cases hn

theorem below_withGenesis (g : Hash) (time : Int64) : (withGenesis g time).Below 0 := by
  intro x
  cases hb : (withGenesis g time).get? x with
  | none => simp [level, hb]
  | some b =>
    obtain ⟨-, rfl⟩ := get?_withGenesis.mp hb
    simp [level, hb]

theorem Event.apply_genesis (t : BlockTree) (e : Event) : (e.apply t).genesis = t.genesis := by
  cases e with
  | insert h p time =>
    rcases insert_cases t h p time with ⟨e, he⟩ | ⟨q, t', -, -, he, -, -, hg, -⟩
    · rw [apply, he]
    · rw [apply, he, hg]
  | addOrphan h p =>
    rw [apply, BlockTree.addOrphan]
    split <;> rfl
  | setBest h => exact (setBest_relinked t h).genesis

theorem run_genesis (t : BlockTree) (es : List Event) : (t.run es).genesis = t.genesis := by
  induction es generalizing t with
  | nil => rfl
  | cons e es ih => exact (ih _).trans (e.apply_genesis t)

/-- What a tree offers: a sound shape, a main chain that is told by looking at one block, and
switches that succeed exactly for the blocks of the tree and change nothing but links.  A walk of a
switch that runs out of steps counts as corrupt, so no walk does. -/
structure Consistent (t : BlockTree) : Prop extends t.Sound where
  main (h : Hash) : t.isOnMain h = true ↔ t.Ancestor h t.best
  setBest_result (h : Hash) :
    (t.setBest h).1 = if t.contains h then .ok () else .error .unknownBlock
  setBest_best (h : Hash) : t.contains h = true → (t.setBest h).2.best = h
  setBest_relinked (h : Hash) : t.Relinked (t.setBest h).2
  setBest_error (h : Hash) (e : TreeError) : (t.setBest h).1 = .error e → (t.setBest h).2 = t
  insert_error (h p : Hash) (time : Int64) (e : TreeError) :
    (t.insert h p time).1 = .error e → (t.insert h p time).2 = t

theorem setBest_of_unknown (hh : t.contains h = false) :
    t.setBest h = (.error .unknownBlock, t) := by
  rw [setBest, contains_eq_false_iff.mp hh]

theorem Sound.consistent (hs : t.Sound) : t.Consistent where
  toSound := hs
  main h := hs.isOnMain_iff
  setBest_result h := by
    cases hh : t.contains h with
    | false => rw [setBest_of_unknown hh]; rfl
    | true =>
      obtain ⟨t', he, -⟩ := hs.exists_setBest hh
      rw [he]; rfl
  setBest_best h hh := by
    obtain ⟨t', he, -, hbest, -⟩ := hs.exists_setBest hh
    rw [he, hbest]
  setBest_relinked h := BlockTree.setBest_relinked t h
  setBest_error h e hf := by
    cases hh : t.contains h with
    | false => rw [setBest_of_unknown hh]
    | true =>
      obtain ⟨t', he, -⟩ := hs.exists_setBest hh
      rw [he] at hf
      cases hf
  insert_error h p time e hf := by
    rcases insert_cases t h p time with ⟨e', he⟩ | ⟨q, t', -, -, he, -⟩
    · rw [he]
    · rw [he] at hf
      cases hf

/-- Heights are words, so the events must be fewer than the words. -/
theorem consistent_run (g : Hash) (time : Int64) (es : List Event)
    (hn : es.length < UInt64.size) :
    ((withGenesis g time).run es).genesis = g ∧ ((withGenesis g time).run es).Consistent := by
  have hs := (sound_withGenesis g time).run (below_withGenesis g time) es (by omega)
  exact ⟨run_genesis _ es, hs.consistent⟩

def reorganization : List Event :=
  let h (n : Nat) : Hash := Digest.ofNatLE n
  [.addOrphan (h 2) (h 1), .insert (h 1) (h 0) 30, .insert (h 2) (h 1) 60, .setBest (h 2),
    .insert (h 3) (h 0) 40, .insert (h 3) (h 1) 50, .setBest (h 4), .setBest (h 3)]

theorem consistent_reorganization :
    reorganization.length < UInt64.size ∧
      ((withGenesis (Digest.ofNatLE 0) 0).run reorganization).genesis = Digest.ofNatLE 0 ∧
      ((withGenesis (Digest.ofNatLE 0) 0).run reorganization).Consistent ∧
      ((withGenesis (Digest.ofNatLE 0) 0).run reorganization).isOnMain (Digest.ofNatLE 3) = true ∧
      ((withGenesis (Digest.ofNatLE 0) 0).run reorganization).isOnMain (Digest.ofNatLE 1) = false :=
  have h := consistent_run (Digest.ofNatLE 0) 0 reorganization (by decide)
  ⟨by decide, h.1, h.2, by decide +kernel, by decide +kernel⟩

end ChainAnchor.BlockTree
