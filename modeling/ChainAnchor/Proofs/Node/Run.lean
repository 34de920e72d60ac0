import ChainAnchor.Proofs.BlockTree.Reachable
import ChainAnchor.Proofs.Node.Outcome
import Mathlib.Data.List.Chain

namespace ChainAnchor.Node

def grow (n : Node) (e : BlockTree.Event) : Node :=
  { n with chain := { n.chain with tree := e.apply n.tree } }

def receive (n : Node) (h parent : Hash) (time : Int64) (catchingUp : Bool) : Node :=
  match n.anchor.accept n.tree h parent catchingUp with
  | (.error _, a) => { n with anchor := a }
  | (.ok (), a) => { n with anchor := a }.grow (.insert h parent time)

inductive Event
  | process (c : Checkpoint) (sender : Option PeerId)
  | acceptPending (ids : List PeerId)
  | send (h : Hash) (ids : List PeerId)
  | blockProcessed (ids : List PeerId) (now : Int64)
  | validate (h : Hash)
  | accept (h parent : Hash) (catchingUp : Bool)
  | receive (h parent : Hash) (time : Int64) (catchingUp : Bool)
  | askForPending (peer : PeerId)
  | setMasterKey (secret : String)
  | reset
  | write (h : Hash)
  | checkMasterKey
  | grow (e : BlockTree.Event)
  /-- The chain is to refuse every switch from now on, or none. -/
  | refuse (b : Bool)
  | useChain (c : Chain)

namespace Event

def apply (n : Node) : Event → Node
  | process c sender => (n.process c sender).2
  | acceptPending ids => (n.acceptPending ids).2
  | send h ids => (n.send h ids).2
  | blockProcessed ids now => (n.blockProcessed ids now).2
  | validate h => (n.validate h).2
  | accept h parent catchingUp =>
    { n with anchor := (n.anchor.accept n.tree h parent catchingUp).2 }
  | receive h parent time catchingUp => n.receive h parent time catchingUp
  | askForPending peer => (n.askForPending peer).2
  | setMasterKey secret => { n with anchor := (n.anchor.setMasterKey secret).2 }
  | reset => n.reset.2
  | write h => (n.write h).2
  | checkMasterKey => n.checkMasterKey.2
  | grow e => n.grow e
  | refuse b => { n with chain := { n.chain with refuses := b } }
  | useChain c => { n with chain := c }

/-- The node on the way through an event that may change the checkpoint twice. -/
def between (n : Node) : Event → List Node
  | blockProcessed ids _ => [(n.acceptPending ids).2]
  | _ => []

/-- Whether an event leaves the choice of the checkpoint to the judgement on its block. -/
def isForward : Event → Bool
  | reset | write _ | checkMasterKey | useChain _ => false
  | _ => true

/-- Whether an event adds a block only if it is accepted as one that has just been received. -/
def isGuarded : Event → Bool
  | grow (.insert ..) => false
  | receive _ _ _ catchingUp => !catchingUp
  | e => e.isForward

end Event

def run (n : Node) (es : List Event) : Node := es.foldl Event.apply n

theorem run_cons (n : Node) (e : Event) (es : List Event) : n.run (e :: es) = (e.apply n).run es :=
  rfl

theorem run_append (n : Node) (es es' : List Event) : n.run (es ++ es') = (n.run es).run es' :=
  List.foldl_append

theorem run_process_of_unknown {n : Node} {c d : Checkpoint} {sender : Option PeerId}
    (hd : c.check n.anchor.network.masterKey = .ok d) (hc : n.tree.contains d.block = false)
    (es : List Event) : n.run (.process c sender :: es) = (n.await d sender).run es := by
  rw [run_cons, Event.apply, process_of_unknown hd hc]

theorem run_grow (n : Node) (es : List BlockTree.Event) :
    n.run (es.map .grow) = { n with chain := { n.chain with tree := n.tree.run es } } := by
  induction es generalizing n with
  | nil => rfl
  | cons e es ih => exact ih (n.grow e)

def history (n : Node) : List Event → List Node
  | [] => [n]
  | e :: es => n :: e.between n ++ history (e.apply n) es

theorem exists_history_eq_cons (n : Node) (es : List Event) : ∃ l, n.history es = n :: l := by
  cases es with
  | nil => exact ⟨[], rfl⟩
  | cons e es => exact ⟨_, rfl⟩

theorem exists_history_eq_concat (n : Node) (es : List Event) :
    ∃ l, n.history es = l ++ [n.run es] := by
  induction es generalizing n with
  | nil => exact ⟨[], rfl⟩
  | cons e es ih =>
    obtain ⟨l, hl⟩ := ih (e.apply n)
    refine ⟨n :: e.between n ++ l, ?_⟩
    rw [history, hl, List.append_assoc]
    rfl

theorem run_mem_history_append (n : Node) (pre post : List Event) :
    n.run pre ∈ n.history (pre ++ post) := by
  induction pre generalizing n with
  | nil =>
    obtain ⟨l, hl⟩ := exists_history_eq_cons n post
    rw [List.nil_append, hl]
    exact List.mem_cons_self
  | cons e pre ih => exact List.mem_append_right _ (ih (e.apply n))

theorem run_mem_history (n : Node) (es : List Event) : n.run es ∈ n.history es := by
  have hm := n.run_mem_history_append es []
  rwa [List.append_nil] at hm

/-- What the first node has and each event keeps, wherever it stands in a run, all nodes have. -/
theorem forall_mem_history {P : Node → Prop} {n : Node} {es : List Event} (hn : P n)
    (hP : ∀ pre e post, es = pre ++ e :: post → P (n.run pre) →
      ∀ m ∈ e.between (n.run pre) ++ [e.apply (n.run pre)], P m) : ∀ m ∈ n.history es, P m := by
  induction es generalizing n with
  | nil =>
    intro m hm
    rwa [List.mem_singleton.mp hm]
  | cons e es ih =>
    have he := hP [] e es rfl hn
    have hes := ih (he _ (List.mem_append_right _ (List.mem_singleton_self _)))
      fun pre e' post h ↦ hP (e :: pre) e' post (by rw [h]; rfl)
    intro m hm
    rcases List.mem_append.mp hm with hm | hm
    · rcases List.mem_cons.mp hm with rfl | hm
      · exact hn
      · exact he m (List.mem_append_left _ hm)
    · exact hes m hm

/-- What relates the nodes on the way through each event relates the nodes of a history. -/
theorem isChain_history {R : Node → Node → Prop} {es : List Event}
    (hR : ∀ e ∈ es, ∀ n : Node, (n :: e.between n ++ [e.apply n]).IsChain R) (n : Node) :
    (n.history es).IsChain R := by
  induction es generalizing n with
  | nil => exact List.isChain_singleton n
  | cons e es ih =>
    obtain ⟨he, hes⟩ := List.forall_mem_cons.mp hR
    have hl := ih hes (e.apply n)
    obtain ⟨l, hl'⟩ := exists_history_eq_cons (e.apply n) es
    rw [hl'] at hl
    rw [history, hl']
    exact List.isChain_split.mpr ⟨he n, hl⟩

theorem eq_or_of_pairwise_history {R : Node → Node → Prop} {n m : Node} {es : List Event}
    (hp : (n.history es).Pairwise R) (hm : m ∈ n.history es) : m = n.run es ∨ R m (n.run es) := by
  obtain ⟨l, hl⟩ := exists_history_eq_concat n es
  rw [hl] at hp hm
  rcases List.mem_append.mp hm with hm | hm
  · exact Or.inr ((List.pairwise_append.mp hp).2.2 m hm _ (List.mem_singleton_self _))
  · exact Or.inl (List.mem_singleton.mp hm)

end ChainAnchor.Node
