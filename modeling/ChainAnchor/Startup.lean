import ChainAnchor.Node
import ChainAnchor.Settings

namespace ChainAnchor

inductive StartupError
  | settings (cause : InvalidSettings)
  | anchor (cause : AnchorError)
  deriving DecidableEq

def StartupError.message : StartupError → String
  | settings e => e.message
  | anchor e => e.message

namespace Node

def withMasterKey (n : Node) : Option String → Except AnchorError Node
  | none => .ok n
  | some secret => match n.anchor.setMasterKey secret with
    | (.error e, _) => .error e
    | (.ok (), a) => .ok { n with anchor := a }

/-- A node on the network of the settings, with nothing but the genesis block and an empty store. -/
def ofSettings (s : Settings) : Except StartupError Node :=
  match s.invalid?, s.policy? with
  | some e, _ => .error (.settings e)
  | none, none => .error (.settings .unknownPolicy)
  | none, some p =>
    let w := Network.named s.node.networkName
    match start w p ⟨.ofNetwork w, false⟩ .empty ∅ with
    | (.error e, _) => .error (.anchor e)
    | (.ok (), n) => match n.withMasterKey s.checkpoints.masterKey with
      | .error e => .error (.anchor e)
      | .ok n => .ok n

/-- Brings the checkpoint up to date; gives what there is to report, and the node after it. -/
def tick (n : Node) (now : Int64) : List String × Node :=
  let (r, n) := n.blockProcessed [] now
  let failure := match r with
    | .error e => ["Checkpoint update failed: " ++ e.message]
    | .ok () => []
  (failure ++ ((n.anchor.warning? n.tree now).map Warning.message).toList, n)

end Node

end ChainAnchor
