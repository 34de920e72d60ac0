import ChainAnchor.Proofs.BlockTree.Size
import ChainAnchor.Proofs.Node.Progress

namespace ChainAnchor

namespace BlockTree

variable {t t' u : BlockTree}

def Leads (t t' : BlockTree) : Prop := ∃ es, t' = t.run es

theorem Leads.refl (t : BlockTree) : t.Leads t := ⟨[], rfl⟩

theorem Leads.trans (h₁ : t.Leads t') (h₂ : t'.Leads u) : t.Leads u := by
  obtain ⟨es, rfl⟩ := h₁
  obtain ⟨es', rfl⟩ := h₂
  exact ⟨es ++ es', List.foldl_append.symm⟩

theorem Switched.leads (hs : t.Switched t') : t.Leads t' := by
  rcases hs with rfl | ⟨h, rfl⟩
  · exact .refl _
  · exact ⟨[.setBest h], rfl⟩

theorem Leads.reachable (hl : t.Leads t') (hr : t.Reachable) : t'.Reachable := by
  obtain ⟨es, rfl⟩ := hl
  exact hr.run es

theorem Leads.extends (hl : t.Leads t') : t.Extends t' := by
  obtain ⟨es, rfl⟩ := hl
  exact run_extends t es

theorem Leads.size_le (hl : t.Leads t') : t.size ≤ t'.size := by
  obtain ⟨es, rfl⟩ := hl
  exact size_le_run t es

end BlockTree

namespace Node

open BlockTree

variable {n m : Node}

def Event.keepsChain : Event → Bool
  | useChain _ => false
  | _ => true

def Grows (n m : Node) : Prop := n.tree.Leads m.tree

theorem Grows.reachable (hg : n.Grows m) (hr : n.tree.Reachable) : m.tree.Reachable :=
  Leads.reachable hg hr

theorem Grows.refl (n : Node) : n.Grows n := Leads.refl n.tree

instance : Trans Grows Grows Grows := ⟨Leads.trans⟩

theorem Step.grows {e : Event} (hs : n.Step e m) : n.Grows m := by
  cases hs with
  | forward hf => exact hf.tree.leads
  | grown f => exact ⟨[f], rfl⟩
  | received h parent time => exact ⟨[.insert h parent time], rfl⟩

theorem Writing.tree {h : Hash} {r : Except AnchorError Unit} (hw : n.Writing h (r, m)) :
    m.tree = n.tree := by
  cases hw <;> rfl

theorem Preparation.switched {r : Except AnchorError Unit} (hp : n.Preparation (r, m)) :
    n.tree.Switched m.tree := by
  have hs (h : Hash) := n.chain.reach_switched h
  cases hp with
  | empty => exact Or.inl rfl
  | refused p l e c hd hc hr =>
    have ht := hs p.2
    rwa [hr] at ht
  | reached p l c hd hc hr =>
    have ht := hs p.2
    rwa [hr] at ht
  | awaited => exact Or.inl rfl

theorem Resetting.switched {r : Except AnchorError Bool} (hs : n.Resetting (r, m)) :
    n.tree.Switched m.tree := by
  cases hs with
  | unprepared e m hp => exact hp.switched
  | groundless m hp => exact hp.switched
  | unsaved m p e m' hp hf hw => exact hw.tree ▸ hp.switched
  | saved m p m' hp hf hw => exact hw.tree ▸ hp.switched

theorem KeyCheck.switched {r : Except AnchorError Unit} (hk : n.KeyCheck (r, m)) :
    n.tree.Switched m.tree := by
  cases hk with
  | reset k j j' r m hj hne hj' ht hs => exact hs.switched
  | _ => exact Or.inl rfl

theorem Loading.tree {r : Except AnchorError Unit} (hl : n.Loading (r, m)) :
    m.tree = n.tree := by
  cases hl with
  | unread => rfl
  | read => rfl
  | written j r hj hw => exact hw.tree

theorem switched_of_start {w : Network} {p : Policy} {c : Chain} {j : Journal} {ps : Peers}
    {r : Except AnchorError Unit} (hs : start w p c j ps = (r, n)) : c.tree.Switched n.tree := by
  have hn := start_outcome w p c j ps
  rw [hs] at hn
  cases hn with
  | unloaded e m hl => exact Or.inl hl.tree
  | checked m r hl hk =>
    have hc := hk.switched
    rwa [hl.tree] at hc

theorem Event.isChain_grows {e : Event} (he : e.keepsChain) (n : Node) :
    (n :: e.between n ++ [e.apply n]).IsChain Grows := by
  have hf (hf : e.isForward) : (n :: e.between n ++ [e.apply n]).IsChain Grows :=
    (e.isChain_step hf n).imp fun _ _ hs ↦ hs.grows
  cases e with
  | reset => exact List.isChain_pair.mpr n.reset_outcome.switched.leads
  | checkMasterKey => exact List.isChain_pair.mpr n.checkMasterKey_outcome.switched.leads
  | write h => exact List.isChain_pair.mpr (Switched.leads (Or.inl (n.write_outcome h).tree))
  | useChain c => cases he
  | _ => exact hf rfl

theorem pairwise_grows {es : List Event} (hes : ∀ e ∈ es, e.keepsChain) (n : Node) :
    (n.history es).Pairwise Grows :=
  (isChain_history (fun e he n ↦ e.isChain_grows (hes e he) n) n).pairwise

theorem grows_of_mem_history {es : List Event} (hes : ∀ e ∈ es, e.keepsChain)
    (hm : m ∈ n.history es) : n.Grows m ∧ m.Grows (n.run es) := by
  have hp := pairwise_grows hes n
  constructor
  · obtain ⟨l, hl⟩ := exists_history_eq_cons n es
    rw [hl] at hp hm
    rcases List.mem_cons.mp hm with rfl | hm
    · exact .refl m
    · exact (List.pairwise_cons.mp hp).1 m hm
  · rcases eq_or_of_pairwise_history hp hm with rfl | hl
    · exact .refl _
    · exact hl

theorem Event.grows {e : Event} (he : e.keepsChain) (n : Node) : n.Grows (e.apply n) := by
  have hes : ∀ e' ∈ [e], e'.keepsChain := List.forall_mem_singleton.mpr he
  exact (grows_of_mem_history hes (run_mem_history n [e])).1

theorem Event.reachable {e : Event} (he : e.keepsChain) (hr : n.tree.Reachable) :
    (e.apply n).tree.Reachable := (e.grows he n).reachable hr

theorem Event.keepsChain_of_isForward {e : Event} (he : e.isForward) : e.keepsChain := by
  cases e with
  | useChain c => cases he
  | _ => rfl

end Node

end ChainAnchor
