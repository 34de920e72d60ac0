import ChainAnchor.Proofs.Node.Authenticity
import ChainAnchor.Proofs.Node.Growth

namespace ChainAnchor

open BlockTree

theorem BlockTree.Reachable.not_rises_genesis {t : BlockTree} (hr : t.Reachable) (a : Hash) :
    ¬ t.Rises a t.genesis := by
  rintro ⟨-, x, y, -, hy, hlt⟩
  obtain ⟨g, time, es, rfl⟩ := hr
  rw [run_genesis] at hy
  obtain ⟨b, hb, hu⟩ := run_extends (withGenesis g time) es (get?_withGenesis.mpr ⟨rfl, rfl⟩)
  obtain rfl := Option.some.inj (hb.symm.trans hy)
  rw [(Block.unlinked_eq_iff.mp hu).2.1] at hlt
  exact UInt64.not_lt_zero hlt

/-- No message is kept, or the one that is kept is that of the current checkpoint. -/
def Anchor.Fresh (a : Anchor) : Prop := a.message.isNull = true ∨ a.message.block = a.current

def Network.founding : Network :=
  { Network.endorsing with hardened := Network.table [(0, Digest.ofNatLE 0)] }

namespace Node

variable {n m : Node} {w : Network} {c : Checkpoint} {h : Hash} {ids : List PeerId}

structure Renews (n m : Node) : Prop where
  grows : n.Grows m
  message : (m.anchor.message = n.anchor.message ∧ m.anchor.current = n.anchor.current) ∨
    (m.anchor.Fresh ∧ Anchor.judge n.tree n.anchor.current m.anchor.current = .ok true)

theorem Kept.renews (hk : n.Kept m) : n.Renews m :=
  ⟨hk.forward.tree.leads, Or.inl ⟨hk.anchor.message, hk.anchor.current⟩⟩

theorem Renews.refl (n : Node) : n.Renews n := ⟨.refl n, Or.inl ⟨rfl, rfl⟩⟩

theorem Adoption.renews_of_error {e : AnchorError} (ha : n.Adoption h (.error e, m))
    (hj : Anchor.judge n.tree n.anchor.current h = .ok true) : n.Renews m := by
  refine ⟨(ha.forward hj).tree.leads, Or.inl ?_⟩
  cases ha <;> exact ⟨rfl, rfl⟩

theorem Acceptance.renews {r : Except AnchorError Bool × Node} (ha : n.Acceptance ids r)
    (hn : n.anchor.Authentic w) : n.Renews r.2 := by
  have hg := ha.forward.tree.leads
  cases ha with
  | idle => exact .refl n
  | dropped h r a hp hc hv => exact (dropped_kept hv).renews
  | failed h e m hp hc hj hm => exact hm.renews_of_error hj
  | accepted h m hp hc hj hm =>
    refine ⟨hg, Or.inr ?_⟩
    rw [promote_anchor, hm.anchor]
    refine ⟨?_, hj⟩
    rcases hn.pending h hp with hd | ⟨-, hb⟩
    · left
      change n.anchor.pendingMessage.isNull = true
      rw [hd, Checkpoint.isNull_default]
    · exact Or.inr hb

theorem Processing.renews {sender : Option PeerId} {r : Except AnchorError Bool × Node}
    (hp : n.Processing c sender r) : n.Renews r.2 := by
  have hg := hp.forward.tree.leads
  cases hp with
  | unsigned => exact .refl n
  | awaited d => exact (n.await_kept d sender).renews
  | invalid d e a hd hc hv => exact (invalid_kept hv).renews
  | older => exact .refl n
  | failed d e m hd hc hj hm => exact hm.renews_of_error hj
  | accepted d m hd hc hj hm =>
    refine ⟨hg, Or.inr ?_⟩
    rw [hm.anchor]
    exact ⟨Or.inr rfl, hj⟩

theorem Sending.renews {r : Except AnchorError Bool × Node} (hs : n.Sending h ids r) :
    n.Renews r.2 := by
  cases hs with
  | unsigned => exact .refl n
  | withheld c r m hp => exact hp.renews
  | relayed k c m hk hs hp =>
    have hr := hp.renews
    exact ⟨hr.grows, hr.message⟩

theorem Following.renews {now : Int64} {r : Except AnchorError Unit × Node}
    (hf : n.Following ids now r) : (n.acceptPending ids).2.Renews r.2 := by
  rcases hf.sends with he | ⟨h, sent, hs⟩
  · rw [he]
    exact .refl _
  · exact hs.renews

theorem receive_renews (n : Node) (h parent : Hash) (time : Int64) (catchingUp : Bool) :
    n.Renews (n.receive h parent time catchingUp) := by
  have hg := (n.receive_step h parent time catchingUp).grows
  have hk := n.anchor.accept_keeps n.tree h parent catchingUp
  refine ⟨hg, Or.inl ?_⟩
  rw [receive]
  rcases ha : n.anchor.accept n.tree h parent catchingUp with ⟨e | u, a⟩ <;> rw [ha] at hk <;>
    exact ⟨hk.message, hk.current⟩

theorem Event.isChain_renews {e : Event} (he : e.isForward) (hn : n.anchor.Authentic w) :
    (n :: e.between n ++ [e.apply n]).IsChain Renews := by
  cases e with
  | blockProcessed ids now =>
    exact List.isChain_cons_cons.mpr ⟨(n.acceptPending_outcome ids).renews hn,
      List.isChain_pair.mpr (n.blockProcessed_outcome ids now).renews⟩
  | process c sender => exact List.isChain_pair.mpr (n.process_outcome c sender).renews
  | acceptPending ids => exact List.isChain_pair.mpr ((n.acceptPending_outcome ids).renews hn)
  | send h ids => exact List.isChain_pair.mpr (n.send_outcome h ids).renews
  | validate h => exact List.isChain_pair.mpr (n.validate_kept h).renews
  | accept h parent catchingUp =>
    exact List.isChain_pair.mpr
      (kept_of_keeps (n.anchor.accept_keeps n.tree h parent catchingUp)).renews
  | receive h parent time catchingUp =>
    exact List.isChain_pair.mpr (n.receive_renews h parent time catchingUp)
  | askForPending peer => exact List.isChain_pair.mpr (n.askForPending_kept peer).renews
  | setMasterKey secret =>
    exact List.isChain_pair.mpr (kept_of_keeps (n.anchor.setMasterKey_keeps secret)).renews
  | grow f => exact List.isChain_pair.mpr ⟨⟨[f], rfl⟩, Or.inl ⟨rfl, rfl⟩⟩
  | refuse b => exact List.isChain_pair.mpr ⟨.refl _, Or.inl ⟨rfl, rfl⟩⟩
  | reset => cases he
  | write h => cases he
  | checkMasterKey => cases he
  | useChain c => cases he

theorem Event.message_apply {e : Event} (he : e.isForward = false) (n : Node) :
    (e.apply n).anchor.message = n.anchor.message := by
  cases e with
  | reset => exact n.reset_outcome.rebased.message
  | checkMasterKey => exact n.checkMasterKey_outcome.rebased.message
  | write h => exact (n.write_outcome h).rebased.message
  | useChain c => rfl
  | _ => cases he

theorem Event.between_eq_nil {e : Event} (he : e.isForward = false) (n : Node) :
    e.between n = [] := by
  cases e with
  | blockProcessed ids now => cases he
  | _ => rfl

theorem message_of_start {p : Policy} {c : Chain} {j : Journal} {ps : Peers}
    {r : Except AnchorError Unit} (hs : start w p c j ps = (r, n)) :
    n.anchor.message = default := by
  have hn := start_outcome w p c j ps
  rw [hs] at hn
  cases hn with
  | unloaded e m hl => exact hl.retains.message
  | checked m r hl hk => exact hk.rebased.message.trans hl.retains.message

theorem Renews.fresh (hr : n.Renews m) (hn : n.anchor.Fresh) : m.anchor.Fresh := by
  rcases hr.message with ⟨hm, hc⟩ | ⟨hf, -⟩
  · rw [Anchor.Fresh, hm, hc]
    exact hn
  · exact hf

def Raised (n : Node) : Prop :=
  n.anchor.message.isNull = true ∨ ∃ x, n.tree.Rises x n.anchor.message.block

theorem Raised.grows (hn : n.Raised) (hg : n.Grows m)
    (hm : m.anchor.message = n.anchor.message) : m.Raised := by
  rw [Raised, hm]
  exact hn.imp_right fun ⟨x, hr⟩ ↦ ⟨x, hr.extends hg.extends⟩

theorem Renews.raised (hr : n.Renews m) (hk : n.tree.Reachable) (hn : n.Raised) : m.Raised := by
  rcases hr.message with ⟨hm, -⟩ | ⟨hnull | hb, hj⟩
  · exact hn.grows hr.grows hm
  · exact Or.inl hnull
  · right
    rw [hb]
    exact ⟨n.anchor.current, (rises_of_judge hk.keyed hj).extends hr.grows.extends⟩

/-- All nodes of a run have what the first one has, if each step that renews the checkpoint keeps it
and so does each event that sets the checkpoint otherwise. -/
theorem forall_mem_history_of_renews {P : Node → Prop} {es : List Event} (hn : Possible w n)
    (h₀ : P n) (hforward : ∀ ⦃k k' : Node⦄, k.Renews k' → P k → P k')
    (hback : ∀ pre e post, es = pre ++ e :: post → e.isForward = false → P (n.run pre) →
      P (e.apply (n.run pre))) : ∀ m ∈ n.history es, P m := by
  refine forall_mem_history h₀ fun pre e post hsplit hpre ↦ ?_
  cases he : e.isForward with
  | true =>
    have hc := Event.isChain_renews he (hn.run pre).authentic
    exact fun m hm ↦ hc.induction P _ hforward (fun _ ↦ hpre) m (List.mem_cons_of_mem _ hm)
  | false =>
    rw [e.between_eq_nil he, List.nil_append, List.forall_mem_singleton]
    exact hback pre e post hsplit he hpre

theorem raised_of_mem_history {es : List Event} (hn : Possible w n) (ht : n.tree.Reachable)
    (hr : n.Raised) (hes : ∀ e ∈ es, e.keepsChain) :
    ∀ m ∈ n.history es, m.tree.Reachable ∧ m.Raised := by
  refine forall_mem_history_of_renews hn ⟨ht, hr⟩ ?_ ?_
  · exact fun k k' hk hkr ↦ ⟨hk.grows.reachable hkr.1, hk.raised hkr.1 hkr.2⟩
  · intro pre e post hsplit he hpre
    have hg := e.grows (hes e (hsplit ▸ List.mem_append_right _ List.mem_cons_self)) (n.run pre)
    exact ⟨hg.reachable hpre.1, hpre.2.grows hg (e.message_apply he _)⟩

/-- The message of a node that has started is that of its checkpoint throughout a run exactly if no
reset, no check of the master key and nothing else that sets the checkpoint without a judgement on
its block moves it while a message is kept.  On the first block a message that is not stale is the
default one. -/
theorem fresh_iff {p : Policy} {ch : Chain} {j : Journal} {ps : Peers}
    (hs : start w p ch j ps = (.ok (), n)) (es : List Event) :
    ((∀ m ∈ n.history es, m.anchor.Fresh) ↔
      ∀ pre e post, es = pre ++ e :: post → e.isForward = false →
        (n.run pre).anchor.message.isNull = true ∨
          (e.apply (n.run pre)).anchor.current = (n.run pre).anchor.current) ∧
    (ch.tree.Reachable → (∀ e ∈ es, e.keepsChain) → ∀ m ∈ n.history es, m.anchor.Fresh →
      m.anchor.current = m.tree.genesis → m.anchor.message.isNull = true) := by
  have hn : Possible w n := .started hs
  have hnull : n.anchor.message.isNull = true := by
    rw [message_of_start hs, Checkpoint.isNull_default]
  refine ⟨⟨fun hf pre e post hsplit he ↦ ?_, fun hset ↦ ?_⟩, fun ht hes m hm hf hg ↦ ?_⟩
  · subst hsplit
    have hafter : (e.apply (n.run pre)).anchor.Fresh := by
      have hm := n.run_mem_history_append (pre ++ [e]) post
      rw [List.append_assoc, run_append] at hm
      exact hf _ hm
    rcases hf _ (n.run_mem_history_append pre (e :: post)) with hb | hb
    · exact Or.inl hb
    · rw [Anchor.Fresh, Event.message_apply he] at hafter
      exact hafter.imp_right fun ha ↦ ha.symm.trans hb
  · refine forall_mem_history_of_renews hn (Or.inl hnull) (fun k k' hk ↦ hk.fresh) ?_
    intro pre e post hsplit he hpre
    rw [Anchor.Fresh, e.message_apply he]
    rcases hset pre e post hsplit he with hb | hb
    · exact Or.inl hb
    · rw [hb]
      exact hpre
  · have htn := (switched_of_start hs).reachable ht
    obtain ⟨htm, hr⟩ := raised_of_mem_history hn htn (Or.inl hnull) hes m hm
    rcases hf with hf | hf
    · exact hf
    · refine hr.resolve_right fun ⟨x, hx⟩ ↦ ?_
      rw [hf, hg] at hx
      exact htm.not_rises_genesis x hx

def foundation : Chain := ⟨.withGenesis (Digest.ofNatLE 0) 0, false⟩

def founded : Node := (start .founding .strict foundation .empty ∅).2

theorem start_founded : start .founding .strict foundation .empty ∅ = (.ok (), founded) :=
  Prod.ext (by decide +kernel) rfl

theorem check_founded :
    (Checkpoint.endorsed (Digest.ofNatLE 1)).check founded.anchor.network.masterKey =
      .ok (.endorsed (Digest.ofNatLE 1)) := by
  rw [(authentic_of_start start_founded).network]
  exact Checkpoint.check_endorsed _ (by decide +kernel)

def promotion : List Event :=
  [.process (.endorsed (Digest.ofNatLE 1)) none,
    .grow (.insert (Digest.ofNatLE 1) (Digest.ofNatLE 0) 30), .acceptPending []]

theorem run_promotion (es : List Event) : founded.run (promotion ++ es) =
    (founded.await (.endorsed (Digest.ofNatLE 1)) none).run (promotion.tail ++ es) :=
  run_process_of_unknown check_founded (by decide +kernel) _

theorem fresh_iff_promotion :
    let es := promotion ++ [.checkMasterKey]
    start .founding .strict foundation .empty ∅ = (.ok (), founded) ∧
      ((∀ m ∈ founded.history es, m.anchor.Fresh) ↔
        ∀ pre e post, es = pre ++ e :: post → e.isForward = false →
          (founded.run pre).anchor.message.isNull = true ∨
            (e.apply (founded.run pre)).anchor.current = (founded.run pre).anchor.current) ∧
      (∀ m ∈ founded.history es, m.anchor.Fresh → m.anchor.current = m.tree.genesis →
        m.anchor.message.isNull = true) ∧
      (founded.run es).anchor.message.isNull = false ∧
      (founded.run es).anchor.message.block = (founded.run es).anchor.current := by
  intro es
  have hes : ∀ e ∈ es, e.keepsChain := by simp [es, promotion, Event.keepsChain]
  have ht : foundation.tree.Reachable := ⟨_, _, [], rfl⟩
  have hf := fresh_iff start_founded es
  refine ⟨start_founded, hf.1, hf.2 ht hes, ?_⟩
  rw [run_promotion]
  decide +kernel

/-- After a reset to the first block the message of the old checkpoint is still kept. -/
theorem not_fresh :
    let last := founded.run (promotion ++ [.reset])
    start .founding .strict foundation .empty ∅ = (.ok (), founded) ∧
      ¬ last.anchor.Fresh ∧ last.anchor.current = last.tree.genesis ∧
      last.anchor.message.isNull = false := by
  intro last
  have he : last = _ := run_promotion [.reset]
  have hnull : last.anchor.message.isNull = false := by
    rw [he]
    decide +kernel
  have hne : last.anchor.message.block ≠ last.anchor.current := by
    rw [he]
    decide +kernel
  have hg : last.anchor.current = last.tree.genesis := by
    rw [he]
    decide +kernel
  refine ⟨start_founded, ?_, hg, hnull⟩
  rintro (hn | hb)
  · rw [hn] at hnull
    cases hnull
  · exact hne hb

end Node

end ChainAnchor
