import ChainAnchor.Settings.Field
import ChainAnchor.Settings.Place
import ChainAnchor.Toml.Document
import ChainAnchor.Toml.Render

namespace ChainAnchor.Settings

open Toml (Value Entries)

def texts (l : List String) : Value := .list false (l.map .text)

def toEntries (s : Settings) : Entries :=
  let net := s.network
  [(networkSection.name, .table .headed [
      ("listen_addr", .text net.listenAddress),
      ("listen_port_mainnet", .integer net.mainPort.toNat),
      ("listen_port_testnet", .integer net.testPort.toNat),
      ("seeds_mainnet", texts net.mainSeeds),
      ("seeds_testnet", texts net.testSeeds)]),
    (nodeSection.name, .table .headed [
      ("network_name", .text s.node.networkName),
      ("data_dir", .text s.node.dataDirectory),
      ("memory_only", .boolean s.node.memoryOnly)]),
    (checkpointsSection.name, .table .headed <|
      ("policy", .text s.checkpoints.policy) ::
        s.checkpoints.masterKey.toList.map fun key ↦ ("master_priv_key", .text key))]

def renderSection (name : String) : Value → String
  | .table _ entries =>
    "[" ++ name ++ "]\n" ++ String.join (entries.map fun e ↦ e.1 ++ " = " ++ e.2.render ++ "\n")
  | _ => ""

def render (s : Settings) : String :=
  String.intercalate "\n" (s.toEntries.map fun e ↦ renderSection e.1 e.2)

def toTree (s : Settings) : Tree := .table (Tree.ofEntries s.toEntries)

def environmentName (s : Section) (f : Field) : String :=
  "stakecoin_" ++ s.name ++ "_" ++ f.alias

/-- The section and the field that a variable of the environment sets. -/
def fieldOf? (entry : String) : Option (Section × Field) :=
  let name := lowerCase entry
  sections.findSome? fun s ↦
    (s.fields.find? fun f ↦ environmentName s f = name).map fun f ↦ (s, f)

/-- Puts a variable of the environment over the settings so far, unless it is empty. -/
def putVariable (t : Tree) (entry value : String) : Tree :=
  match fieldOf? entry with
  | none => t
  | some (s, f) => if value.isEmpty then t else t.put (s.name ++ "." ++ f.name) (.text value)

/-- The tree of a file: what its names describe, beginning with nothing. -/
def treeOf (file : Entries) : Tree := (Tree.table []).putAll (Tree.ofEntries file)

/-- The text of the configuration file, which is written if there is none. -/
def fileText (directory : String) (file : Option String) : String :=
  file.getD (render (ofDirectory directory))

def load (directory : String) (environment : List (String × String)) (file : Option String) :
    Result Settings :=
  match Toml.parse? (fileText directory file) with
  | none => .error .malformedFile
  | some file =>
    let defaults := (ofDirectory directory).toTree
    let withFile := defaults.putAll (Tree.entries (some (treeOf file)))
    ofTree (environment.foldl (fun t p ↦ putVariable t p.1 p.2) withFile)

end ChainAnchor.Settings
