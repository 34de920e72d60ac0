import ChainAnchor.Proofs.BlockTree.Reachable

namespace ChainAnchor.BlockTree

variable {t t' : BlockTree} {h p : Hash}

theorem Relinked.size_eq (hr : t.Relinked t') : t'.size = t.size := by
  have hm : t'.blocks.map (fun _ ↦ Block.unlinked) = t.blocks.map fun _ ↦ Block.unlinked := by
    apply Std.ExtTreeMap.ext_getElem?
    intro h
    rw [Std.ExtTreeMap.getElem?_map, Std.ExtTreeMap.getElem?_map]
    exact hr.get? h
  have hs := congrArg Std.ExtTreeMap.size hm
  rwa [Std.ExtTreeMap.size_map, Std.ExtTreeMap.size_map] at hs

theorem size_insert (t : BlockTree) (h p : Hash) (time : Int64) :
    (t.insert h p time).2 = t ∨ (t.insert h p time).2.size = t.size + 1 := by
  rw [insert]
  split
  · exact Or.inl rfl
  next hh =>
    split
    · exact Or.inl rfl
    · exact Or.inr (Std.ExtTreeMap.size_insert.trans (if_neg hh))

theorem Event.size_le (t : BlockTree) (e : Event) : t.size ≤ (e.apply t).size := by
  cases e with
  | insert h p time =>
    rcases size_insert t h p time with he | he
    · exact Nat.le_of_eq (congrArg size he.symm)
    · exact he ▸ Nat.le_succ _
  | addOrphan h p =>
    rw [apply, BlockTree.addOrphan]
    split <;> exact Nat.le_refl _
  | setBest h => exact Nat.le_of_eq (setBest_relinked t h).size_eq.symm

theorem size_le_run (t : BlockTree) (es : List Event) : t.size ≤ (t.run es).size := by
  induction es generalizing t with
  | nil => exact Nat.le_refl _
  | cons e es ih => exact Nat.le_trans (e.size_le t) (ih _)

def Shallow (t : BlockTree) : Prop := ∀ h, t.level h < t.size

theorem Shallow.apply (hs : t.Shallow) (e : Event) : (e.apply t).Shallow := by
  have hb : t.Below (t.size - 1) := fun h ↦ Nat.le_sub_one_of_lt (hs h)
  cases e with
  | insert h p time =>
    intro x
    rcases size_insert t h p time with he | he
    · rw [Event.apply, he]
      exact hs x
    · have hx := hb.apply (.insert h p time) x
      have h0 := hs x
      rw [Event.apply] at hx ⊢
      omega
  | addOrphan h p =>
    rw [Event.apply, BlockTree.addOrphan]
    split <;> exact hs
  | setBest h =>
    intro x
    have hr := setBest_relinked t h
    rw [Event.apply, hr.size_eq, hr.level_eq]
    exact hs x

theorem Shallow.run (hs : t.Shallow) (es : List Event) : (t.run es).Shallow := by
  induction es generalizing t with
  | nil => exact hs
  | cons e es ih => exact ih (hs.apply e)

theorem Sound.apply_of_size (hs : t.Sound) (hb : t.Shallow) (e : Event)
    (hn : (e.apply t).size < UInt64.size) : (e.apply t).Sound := by
  cases e with
  | insert h p time =>
    rcases size_insert t h p time with he | he
    · rw [Event.apply, he]
      exact hs
    · have hp := hb p
      rw [Event.apply, he] at hn
      exact hs.insert h p time (by omega)
  | addOrphan h p => exact hs.addOrphan h p
  | setBest h => exact hs.setBest h

theorem Sound.run_of_size (hs : t.Sound) (hb : t.Shallow) (es : List Event)
    (hn : (t.run es).size < UInt64.size) : (t.run es).Sound := by
  induction es generalizing t with
  | nil => exact hs
  | cons e es ih =>
    have hle := size_le_run (e.apply t) es
    exact ih (hs.apply_of_size hb e (Nat.lt_of_le_of_lt hle hn)) (hb.apply e) hn

theorem shallow_withGenesis (g : Hash) (time : Int64) : (withGenesis g time).Shallow := by
  intro h
  have hl := below_withGenesis g time h
  have hs : (withGenesis g time).size = 1 := by
    rw [withGenesis, size, Std.ExtTreeMap.size_insert]
    simp
  omega

theorem Reachable.shallow (hr : t.Reachable) : t.Shallow := by
  obtain ⟨g, time, es, rfl⟩ := hr
  exact (shallow_withGenesis g time).run es

theorem Reachable.sound (hr : t.Reachable) (hn : t.size < UInt64.size) : t.Sound := by
  obtain ⟨g, time, es, rfl⟩ := hr
  exact (sound_withGenesis g time).run_of_size (shallow_withGenesis g time) es hn

end ChainAnchor.BlockTree
