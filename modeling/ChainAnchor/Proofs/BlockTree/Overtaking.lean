import ChainAnchor.Proofs.BlockTree.Waiting

namespace ChainAnchor.BlockTree

variable {t : BlockTree} {h o p : Hash} {es : List Event}

def Event.Fits (t : BlockTree) : Event → Prop
  | addOrphan _ p => t.contains p = false
  | _ => True

def Fitting (t : BlockTree) : List Event → Prop
  | [] => True
  | e :: es => e.Fits t ∧ (e.apply t).Fitting es

theorem Fitting.fits {pre post : List Event} {e : Event} (hf : t.Fitting (pre ++ e :: post)) :
    e.Fits (t.run pre) := by
  induction pre generalizing t with
  | nil => exact hf.1
  | cons e' pre ih => exact ih hf.2

theorem Fitting.of_append {es' : List Event} (hf : t.Fitting (es ++ es')) : t.Fitting es := by
  induction es generalizing t with
  | nil => trivial
  | cons e es ih => exact ⟨hf.1, ih hf.2⟩

/-- The run adds a block for which an orphan waits. -/
def Overtakes (t : BlockTree) (es : List Event) (o p : Hash) : Prop :=
  ∃ pre parent time post, es = pre ++ .insert p parent time :: post ∧ (t.run pre).Awaits o p ∧
    ((t.run pre).insert p parent time).1 = .ok ()

theorem Overtakes.append (ho : t.Overtakes es o p) (es' : List Event) :
    t.Overtakes (es ++ es') o p := by
  obtain ⟨pre, parent, time, post, rfl, ha, hi⟩ := ho
  exact ⟨pre, parent, time, post ++ es', by rw [List.append_assoc]; rfl, ha, hi⟩

theorem Overtakes.contains (ho : t.Overtakes es o p) : (t.run es).contains p = true := by
  obtain ⟨pre, parent, time, post, rfl, -, hi⟩ := ho
  rw [run_append]
  refine (run_extends ((t.run pre).insert p parent time).2 post).contains ?_
  rcases insert_cases (t.run pre) p parent time with ⟨e, he⟩ | ⟨q, t', -, -, he, hg, -⟩
  · rw [he] at hi
    cases hi
  · rw [he]
    exact contains_iff.mpr ⟨_, (hg p).trans (if_pos rfl)⟩

/-- An orphan that waits for a block of the tree did so when the block was added. -/
theorem overtakes_of_contains (hm : ∀ o p, t.Awaits o p → t.contains p = false)
    (hf : t.Fitting es) (ha : (t.run es).Awaits o p) (hc : (t.run es).contains p = true) :
    t.Overtakes es o p := by
  induction es using List.reverseRecOn with
  | nil =>
    rw [run, List.foldl_nil] at ha hc
    cases hc.symm.trans (hm o p ha)
  | append_singleton es e ih =>
    -- unless the last event adds the block or records the orphan, it was so before
    have hbefore := fun ha hc ↦ (ih hf.of_append ha hc).append [e]
    rw [run_concat] at ha hc
    cases e with
    | insert h parent time =>
      have ha' : (t.run es).Awaits o p := awaits_of_insert ha
      rcases insert_cases (t.run es) h parent time with ⟨e, he⟩ | ⟨q, t', -, -, he, hg, -⟩
      · rw [Event.apply, he] at hc
        exact hbefore ha' hc
      · rw [Event.apply, he] at hc
        obtain ⟨b, hb⟩ := contains_iff.mp hc
        rcases eq_or_get?_of_insert hg hb with ⟨rfl, -⟩ | hb
        · exact ⟨es, parent, time, [], rfl, ha', by rw [he]⟩
        · exact hbefore ha' (contains_iff.mpr ⟨b, hb⟩)
    | addOrphan h q =>
      have hq : (t.run es).contains q = false := hf.fits
      cases hh : (t.run es).contains h with
      | true =>
        rw [Event.apply, addOrphan, hh, if_pos rfl] at ha hc
        exact hbefore ha hc
      | false =>
        have hc' : (t.run es).contains p = true := by
          rwa [Event.apply, addOrphan, hh] at hc
        rw [Event.apply, awaits_addOrphan_iff hh] at ha
        split at ha
        next => cases hc'.symm.trans (ha ▸ hq)
        next => exact hbefore ha hc'
    | setBest h =>
      have hr := setBest_relinked (t.run es) h
      rw [Event.apply, hr.awaits_eq] at ha
      rw [Event.apply, hr.contains_eq] at hc
      exact hbefore ha hc

/-- A block that an orphan waits for is in the tree exactly if it was added while the orphan waited
for it already. -/
theorem contains_iff_overtakes {g : Hash} {time : Int64} (hf : (withGenesis g time).Fitting es)
    (ha : ((withGenesis g time).run es).Awaits o p) :
    ((withGenesis g time).run es).contains p = true ↔ (withGenesis g time).Overtakes es o p :=
  ⟨overtakes_of_contains (fun o p ha ↦ absurd ha (not_awaits_withGenesis g time o p)) hf ha,
    Overtakes.contains⟩

end ChainAnchor.BlockTree
