import ChainAnchor.Proofs.BlockTree.Reachable

namespace ChainAnchor.BlockTree

variable {t t' : BlockTree} {depth depth' : Hash → Nat} {h p : Hash}

def Event.added? (t : BlockTree) : Event → Option (Hash × Hash × Int64)
  | insert h parent time =>
    match (t.insert h parent time).1 with
    | .ok () => some (h, parent, time)
    | .error _ => none
  | _ => none

def Event.tip? (t : BlockTree) : Event → Option Hash
  | setBest h =>
    match (t.setBest h).1 with
    | .ok () => some h
    | .error _ => none
  | _ => none

/-- What the events of a run do, each to the tree that it meets. -/
def effects {α : Type} (effect? : BlockTree → Event → Option α) (t : BlockTree) :
    List Event → List α
  | [] => []
  | e :: es => (effect? t e).toList ++ effects effect? (e.apply t) es

def added (t : BlockTree) (es : List Event) : List (Hash × Hash × Int64) :=
  effects Event.added? t es

def tips (t : BlockTree) (es : List Event) : List Hash := effects Event.tip? t es

theorem added_cons (t : BlockTree) (e : Event) (es : List Event) :
    t.added (e :: es) = (e.added? t).toList ++ (e.apply t).added es := rfl

theorem tips_cons (t : BlockTree) (e : Event) (es : List Event) :
    t.tips (e :: es) = (e.tip? t).toList ++ (e.apply t).tips es := rfl

def record? (t : BlockTree) (h : Hash) : Option (Option Hash × Int64) :=
  (t.get? h).map fun b ↦ (b.parent, b.time)

theorem Relinked.record?_eq (hr : t.Relinked t') (h : Hash) : t'.record? h = t.record? h := by
  have hu := congrArg (Option.map fun b ↦ (b.parent, b.time)) (hr.get? h)
  rwa [Option.map_map, Option.map_map] at hu

theorem isParent_iff_record? : t.IsParent p h ↔ (t.record? h).bind Prod.fst = some p := by
  rw [isParent_iff, record?, Option.bind_map]
  rfl

theorem Event.record?_apply (t : BlockTree) (e : Event) (h : Hash) (v : Option Hash × Int64) :
    (e.apply t).record? h = some v ↔
      t.record? h = some v ∨ ∃ p time, e.added? t = some (h, p, time) ∧ v = (some p, time) := by
  cases e with
  | insert x p time =>
    rcases insert_cases t x p time with ⟨e, he⟩ | ⟨q, t', hx, -, he, hg, -⟩
    · simp [apply, added?, he]
    · simp only [apply, added?, he, record?, hg, Option.some.injEq, Prod.mk.injEq]
      split
      next hxh =>
        subst hxh
        rw [hx]
        grind
      next hne => simp [hne]
  | addOrphan x p =>
    rw [apply, BlockTree.addOrphan]
    split <;> simp [added?, record?, get?]
  | setBest x =>
    rw [apply, (setBest_relinked t x).record?_eq]
    simp [added?]

theorem record?_run (t : BlockTree) (es : List Event) (h : Hash) (v : Option Hash × Int64) :
    (t.run es).record? h = some v ↔
      t.record? h = some v ∨ ∃ p time, (h, p, time) ∈ t.added es ∧ v = (some p, time) := by
  induction es generalizing t with
  | nil => simp [run, added, effects]
  | cons e es ih =>
    refine (ih (e.apply t)).trans ?_
    simp only [e.record?_apply, added_cons, List.mem_append, Option.mem_toList, or_and_right,
      exists_or, or_assoc]

theorem Linked.apply (hl : t.Linked depth) (e : Event) :
    ∃ depth', (e.apply t).Linked depth' ∧ (e.apply t).best = (e.tip? t).getD t.best := by
  cases e with
  | insert h p time =>
    obtain ⟨depth', hg, hd⟩ := hl.toGraded.insert h p time
    have hbest : (t.insert h p time).2.best = t.best := by
      rcases insert_cases t h p time with ⟨e, he⟩ | ⟨q, t', -, -, he, -, -, -, hb⟩
      · rw [he]
      · rw [he, hb]
    refine ⟨depth', ⟨hg, ?_, hl.next_insert h p time, ?_⟩, hbest⟩
    · rw [Event.apply, hbest]
      exact (insert_extends t h p time).contains hl.best
    · rw [Event.apply, hbest, hd _ hl.best]
      exact hl.low
  | addOrphan h p =>
    have hg := hl.toGraded.addOrphan h p
    rw [Event.apply]
    rw [BlockTree.addOrphan] at hg ⊢
    split
    · exact ⟨depth, hl, rfl⟩
    next hh =>
      rw [if_neg hh] at hg
      exact ⟨depth, ⟨hg, hl.best, hl.next, hl.low⟩, rfl⟩
  | setBest h =>
    rcases hl.setBest_cases h with ⟨e, he⟩ | ⟨t', he, -, hb, hl'⟩
    · simp only [Event.apply, Event.tip?, he]
      exact ⟨depth, hl, rfl⟩
    · simp only [Event.apply, Event.tip?, he]
      exact ⟨depth, hl', hb⟩

/-- The tip of a run is the block that was made the tip last. -/
theorem Linked.run (hl : t.Linked depth) (es : List Event) :
    ∃ depth', (t.run es).Linked depth' ∧ (t.run es).best = (t.tips es).getLast?.getD t.best := by
  induction es generalizing t depth with
  | nil => exact ⟨depth, hl, rfl⟩
  | cons e es ih =>
    obtain ⟨depth₁, hl₁, hb₁⟩ := hl.apply e
    obtain ⟨depth₂, hl₂, hb₂⟩ := ih hl₁
    refine ⟨depth₂, hl₂, hb₂.trans ?_⟩
    rw [hb₁, tips_cons]
    cases e.tip? t with
    | none => rfl
    | some x => rw [Option.toList_some, List.singleton_append, List.getLast?_cons]; rfl

theorem Reachable.linked (hr : t.Reachable) : ∃ depth, t.Linked depth := by
  obtain ⟨g, time, es, rfl⟩ := hr
  obtain ⟨depth, hl, -⟩ := (sound_withGenesis g time).linked.run es
  exact ⟨depth, hl⟩

/-- No block but the first one is without a parent. -/
theorem Reachable.eq_genesis (hr : t.Reachable) {b : Block} (hb : t.get? h = some b)
    (hp : b.parent = none) : h = t.genesis := by
  obtain ⟨g, time, es, rfl⟩ := hr
  have hrec : ((withGenesis g time).run es).record? h = some (none, b.time) := by
    rw [record?, hb, Option.map_some, hp]
  rcases (record?_run _ es h _).mp hrec with hrec | ⟨p, time', -, he⟩
  · obtain ⟨c, hc, -⟩ := Option.map_eq_some_iff.mp hrec
    rw [run_genesis]
    exact (get?_withGenesis.mp hc).1
  · cases he

theorem Reachable.genesis_ancestor (hr : t.Reachable) (hh : t.contains h = true) :
    t.Ancestor t.genesis h := by
  obtain ⟨depth, hl⟩ := hr.linked
  induction hn : depth h generalizing h with
  | zero =>
    obtain ⟨b, hb⟩ := contains_iff.mp hh
    cases hp : b.parent with
    | none => rw [hr.eq_genesis hb hp]; exact .refl
    | some p =>
      have hd := hl.depth_parent ⟨b, hb, hp⟩
      omega
  | succ n ih =>
    rcases hl.eq_zero_or_parent hh with h0 | ⟨p, hp⟩
    · omega
    · have hd := hl.depth_parent hp
      exact .tail (ih (hl.contains_parent hp) (by omega)) hp

theorem Graded.depth_eq (hg : t.Graded depth) (hg' : t'.Graded depth')
    (hr : ∀ h, t'.record? h = t.record? h) (hh : t.contains h = true) : depth' h = depth h := by
  induction hn : depth h using Nat.strongRecOn generalizing h with
  | ind n ih =>
    obtain ⟨b, hb⟩ := contains_iff.mp hh
    have hrec := hr h
    rw [record?, record?, hb, Option.map_some, Option.map_eq_some_iff] at hrec
    obtain ⟨b', hb', he⟩ := hrec
    have hparent : b'.parent = b.parent := congrArg Prod.fst he
    cases hp : b.parent with
    | none => rw [hg'.depth_root hb' (hparent.trans hp), ← hn, hg.depth_root hb hp]
    | some p =>
      have hpar : t.IsParent p h := ⟨b, hb, hp⟩
      have hd := hg.depth_parent hpar
      rw [hg'.depth_parent ⟨b', hb', hparent.trans hp⟩,
        ih (depth p) (by omega) (hg.contains_parent hpar) rfl]
      omega

/-- The parents and times of all blocks and the tip determine a tree. -/
theorem Linked.blocks_eq (hl : t.Linked depth) (hl' : t'.Linked depth')
    (hr : ∀ h, t'.record? h = t.record? h) (hb : t'.best = t.best) : t'.blocks = t.blocks := by
  have hpar : t'.IsParent = t.IsParent := by
    funext p h
    rw [eq_iff_iff, isParent_iff_record?, isParent_iff_record?, hr]
  have hanc : t'.Ancestor = t.Ancestor := by rw [Ancestor, Ancestor, hpar]
  apply Std.ExtTreeMap.ext_getElem?
  intro h
  change t'.get? h = t.get? h
  have hnext : t'.next? h = t.next? h := by
    ext c
    rw [hl'.next, hl.next, hb, hpar, hanc]
  have hrec := hr h
  cases hx : t.get? h with
  | none =>
    rw [record?, record?, hx, Option.map_none, Option.map_eq_none_iff] at hrec
    exact hrec
  | some b =>
    rw [record?, record?, hx, Option.map_some, Option.map_eq_some_iff] at hrec
    obtain ⟨b', hx', he⟩ := hrec
    have hheight : b'.height = b.height := by
      rw [hl'.height hx', hl.height hx,
        hl.depth_eq hl'.toGraded hr (contains_iff.mpr ⟨b, hx⟩)]
    have hhash : b'.hash = b.hash := (hl'.keyed hx').trans (hl.keyed hx).symm
    rw [next?, next?, hx, hx', Option.bind_some, Option.bind_some] at hnext
    obtain ⟨hparent, htime⟩ := Prod.mk.inj he
    rw [hx']
    cases b
    cases b'
    simp_all

/-- Two runs from the same genesis block that add the same blocks, in whatever order, and end up
with the same tip leave the same tree behind.  Calls that fail and orphans may come in between. -/
theorem blocks_eq_of_added (g : Hash) (time : Int64) (es es' : List Event)
    (hadded : ∀ x, x ∈ (withGenesis g time).added es ↔ x ∈ (withGenesis g time).added es')
    (htips : ((withGenesis g time).tips es).getLast? = ((withGenesis g time).tips es').getLast?) :
    ((withGenesis g time).run es).blocks = ((withGenesis g time).run es').blocks ∧
      ((withGenesis g time).run es).best = ((withGenesis g time).run es').best := by
  have hl := (sound_withGenesis g time).linked
  obtain ⟨depth, hl₁, hb₁⟩ := hl.run es
  obtain ⟨depth', hl₂, hb₂⟩ := hl.run es'
  have hbest : ((withGenesis g time).run es).best = ((withGenesis g time).run es').best := by
    rw [hb₁, hb₂, htips]
  refine ⟨hl₂.blocks_eq hl₁ (fun h ↦ ?_) hbest, hbest⟩
  ext v
  simp only [record?_run, hadded]

def detour : List Event :=
  let h (n : Nat) : Hash := Digest.ofNatLE n
  [.insert (h 1) (h 0) 30, .insert (h 2) (h 1) 60, .setBest (h 2), .insert (h 3) (h 0) 40,
    .setBest (h 3), .setBest (h 4)]

def stumble : List Event :=
  let h (n : Nat) : Hash := Digest.ofNatLE n
  [.insert (h 2) (h 1) 60, .insert (h 3) (h 0) 40, .insert (h 1) (h 0) 30, .setBest (h 1),
    .insert (h 2) (h 1) 60, .insert (h 2) (h 3) 70, .setBest (h 3)]

theorem blocks_eq_of_added_detour :
    let t := withGenesis (Digest.ofNatLE 0) 0
    (∀ x, x ∈ t.added detour ↔ x ∈ t.added stumble) ∧
      (t.tips detour).getLast? = (t.tips stumble).getLast? ∧
      ((t.run detour).blocks = (t.run stumble).blocks ∧
        (t.run detour).best = (t.run stumble).best) ∧
      t.added detour ≠ t.added stumble ∧ t.tips detour ≠ t.tips stumble ∧
      (t.run stumble).isOnMain (Digest.ofNatLE 1) = false := by
  intro t
  have hadded : (t.added detour).Perm (t.added stumble) := by decide +kernel
  have htips : (t.tips detour).getLast? = (t.tips stumble).getLast? := by decide +kernel
  exact ⟨fun _ ↦ hadded.mem_iff, htips,
    blocks_eq_of_added (Digest.ofNatLE 0) 0 detour stumble (fun _ ↦ hadded.mem_iff) htips,
    by decide +kernel, by decide +kernel, by decide +kernel⟩

end ChainAnchor.BlockTree
