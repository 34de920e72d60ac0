import ChainAnchor.Bytes.Hex
import ChainAnchor.Checkpoint.Policy
import ChainAnchor.Settings.Error
import ChainAnchor.Text.Utf8

namespace ChainAnchor

namespace Settings

structure Network where
  listenAddress : String
  mainPort : UInt16
  testPort : UInt16
  mainSeeds : List String
  testSeeds : List String
  deriving DecidableEq

structure Node where
  networkName : String
  dataDirectory : String
  memoryOnly : Bool
  deriving DecidableEq

structure Checkpoints where
  policy : String
  /-- The secret to sign checkpoints with, on the node that sends them. -/
  masterKey : Option String
  deriving DecidableEq

end Settings

structure Settings where
  network : Settings.Network
  node : Settings.Node
  checkpoints : Settings.Checkpoints
  deriving DecidableEq

def InvalidSettings.message : InvalidSettings → String
  | noNetworkName => "node.network_name cannot be empty"
  | equalPorts => "network listen ports must differ between networks"
  | noDataDirectory => "node.data_dir is required unless running in memory only mode"
  | unknownPolicy => Policy.expectation
  | malformedKey => "checkpoints.master_priv_key must be 32 hex encoded bytes"

namespace Settings

/-- What holds where nothing else is set, for a node that keeps its files in a directory. -/
def ofDirectory (directory : String) : Settings where
  network := ⟨"*", 9901, 9903, ["seed.mainnet.stakecoin.org"], ["seed.testnet.stakecoin.org"]⟩
  node := ⟨"testnet", directory, false⟩
  checkpoints := ⟨Policy.strict.name, none⟩

def policy? (s : Settings) : Option Policy := Policy.ofName? s.checkpoints.policy

/-- Whether a text has the form of a secret: as many hexadecimal digits as 32 bytes have. -/
def isSecretText (s : String) : Bool :=
  (Utf8.encode s).length = 64 && (Hex.decode? s).isSome

/-- The first reason for which the settings cannot be used. -/
def invalid? (s : Settings) : Option InvalidSettings :=
  if s.node.networkName.isEmpty then some .noNetworkName
  else if s.network.mainPort = s.network.testPort then some .equalPorts
  else if !s.node.memoryOnly && s.node.dataDirectory.isEmpty then some .noDataDirectory
  else if s.policy?.isNone then some .unknownPolicy
  else match s.checkpoints.masterKey with
    | none => none
    | some key => if isSecretText key then none else some .malformedKey

end Settings

end ChainAnchor
