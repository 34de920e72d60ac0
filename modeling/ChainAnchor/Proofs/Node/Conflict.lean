import ChainAnchor.Proofs.Node.MainChain
import ChainAnchor.Proofs.Node.Validation

namespace ChainAnchor

namespace BlockTree

variable {t t' : BlockTree} {c h : Hash}

structure Apart (t : BlockTree) (c h : Hash) : Prop where
  contains_left : t.contains c = true
  contains_right : t.contains h = true
  not_above : ¬t.Ancestor c h
  not_below : ¬t.Ancestor h c

theorem Apart.extends (ha : t.Apart c h) (hr : t.Rooted) (he : t.Extends t') : t'.Apart c h where
  contains_left := he.contains ha.contains_left
  contains_right := he.contains ha.contains_right
  not_above hch := ha.not_above (hr.ancestor_of_extends he ha.contains_right hch)
  not_below hhc := ha.not_below (hr.ancestor_of_extends he ha.contains_left hhc)

end BlockTree

open BlockTree

theorem Chain.refused_of_reach {c c' : Chain} {h : Hash} {e : ChainError} (hs : c.tree.Sound)
    (hh : c.tree.contains h = true) (hr : c.reach h = (.error e, c')) :
    c.refuses = true ∧ c.tree.isOnMain h = false := by
  constructor
  · rw [← Bool.not_eq_false]
    intro hc
    obtain ⟨c'', hok⟩ := exists_reach hc hs hh
    cases hr.symm.trans hok
  · rw [← Bool.not_eq_true]
    intro hm
    rw [reach, hm, if_pos rfl] at hr
    cases hr

namespace Anchor

variable {a : Anchor} {h : Hash}

theorem ofTree_ne_conflict (e : TreeError) (h : Hash) : AnchorError.ofTree e ≠ .conflict h := by
  cases e <;> nofun

theorem eq_of_judge_conflict {t : BlockTree} {c x : Hash}
    (hj : judge t c h = .error (.conflict x)) : x = h := by
  unfold judge at hj
  split at hj
  · cases hj
  · cases hj
  next =>
    split at hj <;> split at hj
    · exact absurd (Except.error.inj hj) (ofTree_ne_conflict _ _)
    · split at hj <;> cases hj
      rfl
    · exact absurd (Except.error.inj hj) (ofTree_ne_conflict _ _)
    · split at hj <;> cases hj
      rfl

theorem validate_invalid (a : Anchor) (t : BlockTree) (h : Hash) :
    (a.validate t h).2.invalid = a.invalid ∨
      (a.validate t h).1 = .error (.conflict h) ∧ (a.validate t h).2.invalid = some h := by
  rw [validate]
  split
  next x hj =>
    rw [eq_of_judge_conflict hj]
    exact Or.inr ⟨rfl, rfl⟩
  next => exact Or.inl rfl

theorem status_of_invalid (hi : a.invalid = some h) : a.status = .invalid h := by
  rw [status, hi]

theorem warning?_of_invalid (hi : a.invalid = some h) (t : BlockTree) (now : Int64) :
    a.warning? t now = some .inconsistent := by
  rw [warning?, hi]
  rfl

theorem accept_invalid (a : Anchor) (t : BlockTree) (h parent : Hash) (catchingUp : Bool) :
    (a.accept t h parent catchingUp).2.invalid = a.invalid := by
  rcases a.accept_snd t h parent catchingUp with he | he <;> rw [he]

theorem setMasterKey_invalid (a : Anchor) (secret : String) :
    (a.setMasterKey secret).2.invalid = a.invalid := by
  rcases a.setMasterKey_snd secret with he | ⟨k, he⟩ <;> rw [he]

end Anchor

namespace Node

variable {n m k : Node} {h : Hash} {ids : List PeerId}

/-- A block was found to conflict, or was accepted and the chain could not be switched to it. -/
inductive Condemns (n : Node) (h : Hash) : Prop
  | conflict : (n.validate h).1 = .error (.conflict h) → Condemns n h
  | refusal (e : ChainError) (c : Chain) : (n.validate h).1 = .ok true →
      n.chain.reach h = (.error e, c) → Condemns n h

def Notes (n m : Node) (P : Hash → Prop) : Prop :=
  m.anchor.invalid = n.anchor.invalid ∨ ∃ h, m.anchor.invalid = some h ∧ P h ∧ n.Condemns h

theorem notes_of_invalid_eq {P : Hash → Prop} {a : Anchor} (hi : a.invalid = n.anchor.invalid) :
    n.Notes { n with anchor := a } P := Or.inl hi

theorem Notes.mono {P Q : Hash → Prop} (hn : n.Notes m P) (hPQ : ∀ h, P h → Q h) : n.Notes m Q :=
  hn.imp_right fun ⟨h, hi, hP, hc⟩ ↦ ⟨h, hi, hPQ h hP, hc⟩

theorem Notes.of_invalid_eq {P : Hash → Prop} (hn : n.Notes m P)
    (hi : k.anchor.invalid = m.anchor.invalid) : n.Notes k P := by
  rw [Notes, hi]
  exact hn

theorem notes_of_validate {r : Except AnchorError Bool} {a : Anchor}
    (hv : n.anchor.validate n.tree h = (r, a)) : n.Notes { n with anchor := a } (· = h) := by
  have hi := n.anchor.validate_invalid n.tree h
  rw [hv] at hi
  exact hi.imp_right fun ⟨hr, hi⟩ ↦ ⟨h, hi, rfl, .conflict (by rw [validate_eq, hv]; exact hr)⟩

theorem validate_notes (n : Node) (h : Hash) : n.Notes (n.validate h).2 (· = h) :=
  notes_of_validate rfl

theorem Adoption.notes {r : Except AnchorError Unit} (ha : n.Adoption h (r, m))
    (hj : Anchor.judge n.tree n.anchor.current h = .ok true) : n.Notes m (· = h) := by
  cases ha with
  | refused e c hr =>
    have hv : (n.validate h).1 = .ok true := (n.anchor.validate_fst n.tree h).trans hj
    exact Or.inr ⟨h, rfl, rfl, .refusal e c hv hr⟩
  | unsaved => exact Or.inl rfl
  | saved => exact Or.inl rfl

theorem Acceptance.notes {r : Except AnchorError Bool} (ha : n.Acceptance ids (r, m)) :
    n.Notes m (n.anchor.pending = some ·) := by
  cases ha with
  | idle => exact Or.inl rfl
  | dropped h r a hp hc hv =>
    have hn := (notes_of_validate hv).mono (Q := (n.anchor.pending = some ·)) fun x hx ↦ hx ▸ hp
    exact hn.of_invalid_eq rfl
  | failed h e m hp hc hj hm => exact (hm.notes hj).mono fun x hx ↦ hx ▸ hp
  | accepted h m hp hc hj hm =>
    have hn := (hm.notes hj).mono (Q := (n.anchor.pending = some ·)) fun x hx ↦ hx ▸ hp
    refine hn.of_invalid_eq ?_
    rw [promote_anchor]
    rfl

theorem Processing.notes {c : Checkpoint} {sender : Option PeerId} {r : Except AnchorError Bool}
    (hp : n.Processing c sender (r, m)) :
    n.Notes m fun h ↦ ∃ d, c.check n.anchor.network.masterKey = .ok d ∧ d.block = h := by
  cases hp with
  | unsigned => exact Or.inl rfl
  | awaited d =>
    refine Or.inl ?_
    rw [await_anchor]
    rfl
  | invalid d e a hd hc hv => exact (notes_of_validate hv).mono fun x hx ↦ ⟨d, hd, hx.symm⟩
  | older => exact Or.inl rfl
  | failed d e m hd hc hj hm => exact (hm.notes hj).mono fun x hx ↦ ⟨d, hd, hx.symm⟩
  | accepted d m hd hc hj hm =>
    have hn := (hm.notes hj).mono fun x hx ↦ (⟨d, hd, hx.symm⟩ :
      ∃ d, c.check n.anchor.network.masterKey = .ok d ∧ d.block = x)
    exact hn.of_invalid_eq rfl

/-- A checkpoint that is made here is judged by the block that it was made for. -/
theorem Sending.notes {r : Except AnchorError Bool} (hs : n.Sending h ids (r, m)) :
    n.Notes m (· = h) := by
  have hblock {k : PrivateKey} {c d : Checkpoint} (hc : (Checkpoint.new h).sign k = .ok c)
      (hd : c.check n.anchor.network.masterKey = .ok d) : d.block = h := by
    rw [Checkpoint.eq_of_check_sign hc hd]
    exact Checkpoint.block_of_sign hc
  cases hs with
  | unsigned => exact Or.inl rfl
  | withheld c r m hp hr hk =>
    obtain ⟨k, -, hc⟩ := hk
    exact hp.notes.mono fun x ⟨d, hd, hx⟩ ↦ hx ▸ hblock hc hd
  | relayed k c m hk hc hp =>
    have hn := hp.notes.mono (Q := (· = h)) fun x ⟨d, hd, hx⟩ ↦ hx ▸ hblock hc hd
    exact hn.of_invalid_eq rfl

theorem Following.notes {now : Int64} {r : Except AnchorError Unit × Node}
    (hf : n.Following ids now r) :
    (n.acceptPending ids).2.Notes r.2 (· = (n.acceptPending ids).2.tree.selected) := by
  cases hf with
  | failed e m hm =>
    rw [hm]
    exact Or.inl rfl
  | silent b m hm =>
    rw [hm]
    exact Or.inl rfl
  | unsent b m e m' hm hc hne hs =>
    rw [hm]
    exact hs.notes
  | sent b m sent m' hm hc hne hs =>
    rw [hm]
    exact hs.notes

theorem receive_invalid (n : Node) (h parent : Hash) (time : Int64) (catchingUp : Bool) :
    (n.receive h parent time catchingUp).anchor.invalid = n.anchor.invalid := by
  have hi := n.anchor.accept_invalid n.tree h parent catchingUp
  rw [receive]
  rcases ha : n.anchor.accept n.tree h parent catchingUp with ⟨e | u, a⟩ <;> rwa [ha] at hi

theorem askForPending_anchor (n : Node) (peer : PeerId) :
    (n.askForPending peer).2.anchor = n.anchor := by
  rw [askForPending]
  split
  · rfl
  · split <;> rfl

def Event.Examines (n : Node) (h : Hash) : Event → Prop
  | process c _ => ∃ d, c.check n.anchor.network.masterKey = .ok d ∧ d.block = h
  | acceptPending _ => n.anchor.pending = some h
  | send x _ => h = x
  | blockProcessed _ _ => n.anchor.pending = some h ∨ h = n.tree.selected
  | validate x => h = x
  | _ => False

theorem Event.isChain_notes (e : Event) (n : Node) :
    (n :: e.between n ++ [e.apply n]).IsChain fun k m ↦ k.Notes m (e.Examines k) := by
  cases e with
  | blockProcessed ids now =>
    have ha := (n.acceptPending_outcome ids).notes
    have hf := (n.blockProcessed_outcome ids now).notes
    exact List.isChain_cons_cons.mpr ⟨ha.mono fun _ ↦ Or.inl,
      List.isChain_pair.mpr (hf.mono fun _ ↦ Or.inr)⟩
  | process c sender => exact List.isChain_pair.mpr (n.process_outcome c sender).notes
  | acceptPending ids => exact List.isChain_pair.mpr (n.acceptPending_outcome ids).notes
  | send h ids => exact List.isChain_pair.mpr (n.send_outcome h ids).notes
  | validate h => exact List.isChain_pair.mpr (n.validate_notes h)
  | accept h parent catchingUp =>
    exact List.isChain_pair.mpr
      (notes_of_invalid_eq (n.anchor.accept_invalid n.tree h parent catchingUp))
  | receive h parent time catchingUp =>
    exact List.isChain_pair.mpr (Or.inl (n.receive_invalid h parent time catchingUp))
  | askForPending peer =>
    exact List.isChain_pair.mpr (Or.inl (congrArg Anchor.invalid (n.askForPending_anchor peer)))
  | setMasterKey secret =>
    exact List.isChain_pair.mpr (notes_of_invalid_eq (n.anchor.setMasterKey_invalid secret))
  | reset => exact List.isChain_pair.mpr (Or.inl n.reset_outcome.rebased.invalid)
  | checkMasterKey => exact List.isChain_pair.mpr (Or.inl n.checkMasterKey_outcome.rebased.invalid)
  | write h => exact List.isChain_pair.mpr (Or.inl (n.write_outcome h).rebased.invalid)
  | grow f => exact List.isChain_pair.mpr (Or.inl rfl)
  | refuse b => exact List.isChain_pair.mpr (Or.inl rfl)
  | useChain c => exact List.isChain_pair.mpr (Or.inl rfl)

structure Conflicts (n : Node) (h : Hash) : Prop where
  verdict : (n.validate h).1 = .error (.conflict h)
  apart : n.tree.Apart n.anchor.current h

structure Refused (n : Node) (h : Hash) : Prop where
  verdict : (n.validate h).1 = .ok true
  above : n.tree.StrictAncestor n.anchor.current h
  refuses : n.chain.refuses = true
  off : n.tree.isOnMain h = false

theorem apart_of_validate (hs : n.tree.Sound)
    (hv : (n.validate h).1 = .error (.conflict h)) : n.tree.Apart n.anchor.current h := by
  have hd := Anchor.validate_verdict hs.toRooted n.anchor h
  rw [validate_eq] at hv
  rcases hr : n.anchor.validate n.tree h with ⟨r, a⟩
  rw [hr] at hv hd
  cases hd with
  | astray => cases hv
  | unknown => cases hv
  | above => cases hv
  | below => cases hv
  | apart hc hh hch hhc => exact ⟨hc, hh, hch, hhc⟩

theorem Condemns.cases (hc : n.Condemns h) (hs : n.tree.Sound) : n.Conflicts h ∨ n.Refused h := by
  cases hc with
  | conflict hv => exact Or.inl ⟨hv, apart_of_validate hs hv⟩
  | refusal e c hv hr =>
    have hj := (n.anchor.validate_fst n.tree h).symm.trans hv
    have hrise := rises_of_judge hs.keyed hj
    obtain ⟨hrefuses, hoff⟩ := Chain.refused_of_reach hs hrise.contains hr
    exact Or.inr ⟨hv, hrise.strictAncestor, hrefuses, hoff⟩

theorem Notes.isSome {P : Hash → Prop} (hn : n.Notes m P) (hi : n.anchor.invalid.isSome) :
    m.anchor.invalid.isSome := by
  rcases hn with he | ⟨h, he, -⟩
  · rwa [he]
  · rw [he, Option.isSome_some]

def Warned (n m : Node) : Prop := n.anchor.invalid.isSome → m.anchor.invalid.isSome

instance : Trans Warned Warned Warned := ⟨fun h₁ h₂ hi ↦ h₂ (h₁ hi)⟩

theorem pairwise_warned (n : Node) (es : List Event) : (n.history es).Pairwise Warned :=
  (isChain_history (fun e _ n ↦ (e.isChain_notes n).imp fun _ _ hn hi ↦ hn.isSome hi) n).pairwise

/-- A note of a conflict is never taken back, and it is what the status and the warning tell of from
then on.  Where the chain is not exchanged, a block is noted only when it is validated and either
lies on another branch than the checkpoint, as it then does for good, or descends from it and the
chain refuses to be switched to it. -/
theorem invalid_run (n : Node) (es : List Event) :
    (n.history es).Pairwise (fun k m ↦ k.anchor.invalid.isSome → m.anchor.invalid.isSome) ∧
    (∀ m ∈ n.history es, ∀ h, m.anchor.invalid = some h → m.anchor.status = .invalid h ∧
      ∀ t now, m.anchor.warning? t now = some .inconsistent) ∧
    (n.tree.Reachable → (∀ e ∈ es, e.keepsChain) → (n.run es).tree.size < UInt64.size →
      ∀ pre e post, es = pre ++ e :: post →
        ((n.run pre).history [e]).IsChain fun k m ↦ m.anchor.invalid ≠ k.anchor.invalid →
          ∃ h, m.anchor.invalid = some h ∧ e.Examines k h ∧
            (k.Conflicts h ∧ (∀ x ∈ (e.apply (n.run pre)).history post,
              x.tree.Apart k.anchor.current h) ∨ k.Refused h)) := by
  refine ⟨pairwise_warned n es, fun m _ h hi ↦ ⟨Anchor.status_of_invalid hi,
    Anchor.warning?_of_invalid hi⟩, ?_⟩
  rintro hr hes hsize pre e post rfl
  have hpre : ∀ e' ∈ pre, e'.keepsChain := fun e' he ↦ hes e' (List.mem_append_left _ he)
  obtain ⟨he, hpost⟩ := List.forall_mem_cons.mp fun e' he ↦ hes e' (List.mem_append_right _ he)
  refine (e.isChain_notes (n.run pre)).imp_of_mem_imp fun k m hk _ hn hne ↦ ?_
  obtain ⟨hpk, hke⟩ := grows_of_mem_history (List.forall_mem_singleton.mpr he) hk
  have hkr : k.tree.Reachable :=
    hpk.reachable ((grows_of_mem_history hpre (run_mem_history n pre)).1.reachable hr)
  have hend : (e.apply (n.run pre)).Grows (n.run (pre ++ e :: post)) := by
    rw [run_append, run_cons]
    exact (grows_of_mem_history hpost (run_mem_history _ post)).1
  have hs : k.tree.Sound :=
    hkr.sound (Nat.lt_of_le_of_lt (Leads.trans hke hend).size_le hsize)
  obtain ⟨h, hi, hx, hc⟩ := hn.resolve_left hne
  refine ⟨h, hi, hx, (hc.cases hs).imp_left fun hconf ↦ ⟨hconf, fun x hx ↦ ?_⟩⟩
  exact hconf.apart.extends hs.toRooted
    (Leads.trans hke (grows_of_mem_history hpost hx).1).extends

/-- The chain refuses to be switched to the pending block at first.  Once that is the checkpoint, a
block beside it is validated, to which a reset then takes the checkpoint. -/
def dispute : List Event :=
  [.refuse true, .acceptPending [], .refuse false, .acceptPending [],
    .validate (Digest.ofNatLE 3), .reset,
    .grow (.insert (Digest.ofNatLE 5) (Digest.ofNatLE 3) 120)]

theorem invalid_run_dispute :
    let m (steps : Nat) := forking.run (dispute.take steps)
    forking.tree.Reachable ∧ (∀ e ∈ dispute, e.keepsChain) ∧
      (forking.run dispute).tree.size < UInt64.size ∧
      (m 1).Refused (Digest.ofNatLE 2) ∧ (m 2).anchor.invalid = some (Digest.ofNatLE 2) ∧
      (m 4).Conflicts (Digest.ofNatLE 3) ∧ (m 5).anchor.invalid = some (Digest.ofNatLE 3) ∧
      (m 7).anchor.current = Digest.ofNatLE 3 ∧
      (m 7).tree.Apart (Digest.ofNatLE 2) (Digest.ofNatLE 3) ∧
      (m 7).anchor.status = .invalid (Digest.ofNatLE 3) := by
  intro m
  have hr : forking.tree.Reachable := ⟨_, _, _, rfl⟩
  have hes : ∀ e ∈ dispute, e.keepsChain := by simp [dispute, Event.keepsChain]
  have hsize : (forking.run dispute).tree.size < UInt64.size := by decide +kernel
  obtain ⟨-, hstatus, hrun⟩ := invalid_run forking dispute
  have hnote := hrun hr hes hsize
  have h₂ : (m 2).anchor.invalid = some (Digest.ofNatLE 2) := by decide +kernel
  have h₅ : (m 5).anchor.invalid = some (Digest.ofNatLE 3) := by decide +kernel
  have h₇ : (m 7).anchor.invalid = some (Digest.ofNatLE 3) := by decide +kernel
  have hok : ((m 1).validate (Digest.ofNatLE 2)).1 = .ok true := by decide +kernel
  have hwilling : (m 4).chain.refuses = false := by decide +kernel
  have hcur : (m 4).anchor.current = Digest.ofNatLE 2 := by decide +kernel
  obtain ⟨x, hx, -, hc⟩ := List.isChain_pair.mp (hnote (dispute.take 1) _ _ rfl) (by decide +kernel)
  obtain rfl := Option.some.inj (hx.symm.trans h₂)
  have hrefused := hc.resolve_left fun hc ↦ nomatch hok.symm.trans hc.1.verdict
  obtain ⟨x, hx, -, hc⟩ := List.isChain_pair.mp (hnote (dispute.take 4) _ _ rfl) (by decide +kernel)
  obtain rfl := Option.some.inj (hx.symm.trans h₅)
  obtain ⟨hconf, hapart⟩ := hc.resolve_right fun hc ↦ nomatch hwilling.symm.trans hc.refuses
  refine ⟨hr, hes, hsize, hrefused, h₂, hconf, h₅, by decide +kernel, hcur ▸ hapart (m 7) ?_,
    (hstatus (m 7) (run_mem_history ..) _ h₇).1⟩
  exact run_mem_history ..

end Node

end ChainAnchor
