import ChainAnchor.Proofs.BlockTree.History
import ChainAnchor.Proofs.Node.Growth

namespace ChainAnchor

theorem Network.eq_of_admits {w : Network} {height : UInt64} {h x : Hash}
    (ha : w.admits height h = true) (hx : w.hardened[height]? = some x) : h = x := by
  rw [admits, hx] at ha
  exact (of_decide_eq_true ha).symm

/-- No policy accepts a block in place of a hardened one. -/
theorem Anchor.admits_of_accept {a a' : Anchor} {t : BlockTree} {h p : Hash} {catchingUp : Bool}
    {q : Block} (ha : a.accept t h p catchingUp = (.ok (), a')) (hq : t.get? p = some q) :
    a.network.admits (q.height + 1) h = true := by
  rw [accept, hq] at ha
  by_contra hn
  rw [Bool.not_eq_true] at hn
  simp [hn] at ha

namespace Node

open BlockTree

variable {n m : Node} {h p : Hash}

def Event.isVetted : Event → Bool
  | grow (.insert ..) => false
  | useChain _ => false
  | _ => true

/-- The hardened checkpoints stay, and no block that is new stands in the place of one. -/
structure Vets (n m : Node) : Prop where
  network : m.anchor.network = n.anchor.network
  tree : n.tree.Extends m.tree
  admits : ∀ ⦃h b⦄, n.tree.contains h = false → m.tree.get? h = some b →
    n.anchor.network.admits b.height h = true

theorem Vets.trans {k : Node} (h₁ : n.Vets m) (h₂ : m.Vets k) : n.Vets k := by
  refine ⟨h₂.network.trans h₁.network, h₁.tree.trans h₂.tree, fun h b hn hb ↦ ?_⟩
  cases hm : m.tree.get? h with
  | none =>
    rw [← h₁.network]
    exact h₂.admits (contains_eq_false_iff.mpr hm) hb
  | some c =>
    obtain ⟨b', hb', hu⟩ := h₂.tree hm
    obtain rfl := Option.some.inj (hb.symm.trans hb')
    rw [(Block.unlinked_eq_iff.mp hu).2.1]
    exact h₁.admits hn hm

instance : Trans Vets Vets Vets := ⟨Vets.trans⟩

theorem vets_of_contains (hw : m.anchor.network = n.anchor.network) (ht : n.tree.Extends m.tree)
    (hc : ∀ h, m.tree.contains h = n.tree.contains h) : n.Vets m := by
  refine ⟨hw, ht, fun h b hn hb ↦ ?_⟩
  rw [← hc, contains_eq_false_iff, hb] at hn
  cases hn

theorem vets_of_switched (hw : m.anchor.network = n.anchor.network)
    (hs : n.tree.Switched m.tree) : n.Vets m :=
  vets_of_contains hw hs.relinked.extends hs.relinked.contains_eq

theorem vets_received {time : Int64} {catchingUp : Bool} {a : Anchor}
    (ha : n.anchor.accept n.tree h p catchingUp = (.ok (), a)) :
    n.Vets (grow { n with anchor := a } (.insert h p time)) := by
  have hk := n.anchor.accept_keeps n.tree h p catchingUp
  rw [ha] at hk
  refine ⟨hk.network, insert_extends n.tree h p time, fun x b hx hb ↦ ?_⟩
  change (n.tree.insert h p time).2.get? x = some b at hb
  rcases insert_cases n.tree h p time with ⟨e, he⟩ | ⟨q, t', -, hq, he, hg, -⟩
  · rw [he, contains_eq_false_iff.mp hx] at hb
    cases hb
  · rw [he] at hb
    rcases eq_or_get?_of_insert hg hb with ⟨rfl, rfl⟩ | hb
    · exact Anchor.admits_of_accept ha hq
    · rw [contains_eq_false_iff.mp hx] at hb
      cases hb

theorem Step.vets {e : Event} (hs : n.Step e m) (he : e.isVetted) : n.Vets m := by
  cases hs with
  | forward hf => exact vets_of_switched hf.network hf.tree
  | grown f hf =>
    subst hf
    have hext := f.apply_extends n.tree
    cases f with
    | insert h p time => cases he
    | addOrphan h p =>
      refine vets_of_contains rfl hext fun x ↦ ?_
      rw [tree, grow, BlockTree.Event.apply, addOrphan]
      dsimp only
      split <;> rfl
    | setBest h => exact vets_of_contains rfl hext (setBest_relinked n.tree h).contains_eq
  | received h p time catchingUp a hf ha => exact vets_received ha

theorem Event.isChain_vets {e : Event} (he : e.isVetted) (n : Node) :
    (n :: e.between n ++ [e.apply n]).IsChain Vets := by
  have hf (hf : e.isForward) : (n :: e.between n ++ [e.apply n]).IsChain Vets :=
    (e.isChain_step hf n).imp fun _ _ hs ↦ hs.vets he
  cases e with
  | reset =>
    have hs := n.reset_outcome
    exact List.isChain_pair.mpr (vets_of_switched hs.rebased.network hs.switched)
  | checkMasterKey =>
    have hk := n.checkMasterKey_outcome
    exact List.isChain_pair.mpr (vets_of_switched hk.rebased.network hk.switched)
  | write h =>
    have hw := n.write_outcome h
    exact List.isChain_pair.mpr (vets_of_switched hw.rebased.network (Or.inl hw.tree))
  | useChain c => cases he
  | _ => exact hf rfl

theorem vets_run {es : List Event} (hes : ∀ e ∈ es, e.isVetted) (n : Node) :
    n.Vets (n.run es) := by
  have hp : (n.history es).Pairwise Vets :=
    (isChain_history (fun e he n ↦ e.isChain_vets (hes e he) n) n).pairwise
  obtain ⟨l, hl⟩ := exists_history_eq_cons n es
  have hn : n ∈ n.history es := hl ▸ List.mem_cons_self
  rcases eq_or_of_pairwise_history hp hn with he | hv
  · rw [← he]
    exact vets_of_switched rfl (Or.inl rfl)
  · exact hv

theorem Event.keepsChain_of_isVetted {e : Event} (he : e.isVetted) : e.keepsChain := by
  cases e with
  | useChain c => cases he
  | _ => rfl

/-- Every block that joins the tree at a hardened height is the hardened one.  So every chain that
reaches a hardened height goes through the hardened block.  At height zero stands the genesis block,
which nobody asks the table about, so there the table has to name it. -/
theorem hardened_of_joined {g : Hash} {time : Int64} (n : Node)
    (hn : n.tree = withGenesis g time) (es : List Event) (hes : ∀ e ∈ es, e.isVetted) :
    (∀ h b x, h ≠ g → (n.run es).tree.get? h = some b →
      n.anchor.network.hardened[b.height]? = some x → h = x) ∧
    ∀ tip c height x, (n.run es).tree.get? tip = some c →
      n.anchor.network.hardened[height]? = some x → (height = 0 → x = g) → height ≤ c.height →
      (n.run es).tree.Ancestor x tip ∧
        ∃ b, (n.run es).tree.get? x = some b ∧ b.height = height := by
  have hv := vets_run hes n
  have hjoined (h : Hash) (b : Block) (x : Hash) (hh : h ≠ g)
      (hb : (n.run es).tree.get? h = some b)
      (hx : n.anchor.network.hardened[b.height]? = some x) : h = x := by
    refine Network.eq_of_admits (hv.admits ?_ hb) hx
    rw [contains_eq_false_iff, hn, Option.eq_none_iff_forall_ne_some]
    exact fun c hc ↦ hh (get?_withGenesis.mp hc).1
  have hzero (b : Block) (hb : (n.run es).tree.get? g = some b) : b.height = 0 := by
    have hg : n.tree.get? g = some ⟨g, 0, time, none, none⟩ :=
      hn.symm ▸ get?_withGenesis.mpr ⟨rfl, rfl⟩
    obtain ⟨b', hb', hu⟩ := hv.tree hg
    obtain rfl := Option.some.inj (hb.symm.trans hb')
    exact (Block.unlinked_eq_iff.mp hu).2.1
  have hr : n.tree.Reachable := ⟨g, time, [], hn⟩
  have hkeep : ∀ e ∈ es, e.keepsChain := fun e he ↦ Event.keepsChain_of_isVetted (hes e he)
  have hrun := (grows_of_mem_history hkeep (run_mem_history n es)).1.reachable hr
  refine ⟨hjoined, fun tip c height x hc hx hg hle ↦ ?_⟩
  obtain ⟨depth, hl⟩ := hrun.linked
  obtain ⟨a, b, ha, hb, rfl⟩ := hl.exists_ancestor hc hle
  have hax : a = x := by
    by_cases hag : a = g
    · subst hag
      exact (hg (hzero b hb)).symm
    · exact hjoined a b x hag hb hx
  exact hax ▸ ⟨ha, b, hb, rfl⟩

def hardening (height : UInt64) (x : Hash) (policy : Policy) : Node :=
  { anchor := .new { (default : Network) with
      hardened := Network.table [(height, x)] } policy
    chain := ⟨.withGenesis (Digest.ofNatLE 0) 0, false⟩
    journal := .empty
    peers := ∅ }

def bypass : List Event :=
  let h (n : Nat) : Hash := Digest.ofNatLE n
  [.receive (h 1) (h 0) 30 true, .receive (h 3) (h 1) 60 true, .grow (.addOrphan (h 4) (h 2)),
    .receive (h 2) (h 1) 70 false, .receive (h 4) (h 2) 90 true, .grow (.setBest (h 4)), .reset]

theorem hardened_of_joined_bypass :
    let h (n : Nat) : Hash := Digest.ofNatLE n
    let n := hardening 2 (h 2) .permissive
    n.tree = withGenesis (h 0) 0 ∧ (∀ e ∈ bypass, e.isVetted) ∧
      ((∀ x b y, x ≠ h 0 → (n.run bypass).tree.get? x = some b →
          n.anchor.network.hardened[b.height]? = some y → x = y) ∧
        ∀ tip c height x, (n.run bypass).tree.get? tip = some c →
          n.anchor.network.hardened[height]? = some x → (height = 0 → x = h 0) →
          height ≤ c.height → (n.run bypass).tree.Ancestor x tip ∧
            ∃ b, (n.run bypass).tree.get? x = some b ∧ b.height = height) ∧
      (n.run bypass).tree.contains (h 3) = false ∧ (n.run bypass).tree.bestHeight = 3 := by
  intro h n
  have he : ∀ e ∈ bypass, e.isVetted := by decide +kernel
  exact ⟨rfl, he, hardened_of_joined n rfl bypass he, by decide +kernel, by decide +kernel⟩

/-- A table that names another block than the genesis block at height zero. -/
theorem not_hardened_genesis :
    let h (n : Nat) : Hash := Digest.ofNatLE n
    let n := hardening 0 (h 1) .strict
    let m := n.run [.receive (h 2) (h 0) 30 false]
    Event.isVetted (.receive (h 2) (h 0) 30 false) = true ∧ n.tree = withGenesis (h 0) 0 ∧
      n.anchor.network.hardened[(0 : UInt64)]? = some (h 1) ∧
      m.tree.contains (h 2) = true ∧ ¬ m.tree.Ancestor (h 1) (h 2) := by
  intro h n m
  refine ⟨rfl, rfl, by decide +kernel, by decide +kernel, fun ha ↦ ?_⟩
  have hn : n.tree.Reachable := ⟨h 0, 0, [], rfl⟩
  have hm : m.tree.Reachable := Event.reachable (e := .receive (h 2) (h 0) 30 false) rfl hn
  obtain ⟨depth, hl⟩ := hm.linked
  have hc : m.tree.contains (h 1) = true := hl.contains_ancestor ha (by decide +kernel)
  exact absurd hc (by decide +kernel)

end Node

end ChainAnchor
