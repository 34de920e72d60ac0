import ChainAnchor.Settings
import ChainAnchor.Settings.Tree

namespace ChainAnchor.Settings

abbrev Result (α : Type) := Except SettingsError α

/-- Both results.  Of two errors the first one counts, but a field that is missing is an error only
where there is no other. -/
def together {α β : Type} : Result α → Result β → Result (α × β)
  | .ok a, .ok b => .ok (a, b)
  | .ok _, .error e => .error e
  | .error e, .ok _ => .error e
  | .error d, .error e => .error (if d.isMissingField && !e.isMissingField then e else d)

def flagWord? (s : String) : Option Bool :=
  let s := lowerCase s
  if ["true", "on", "yes"].contains s then some true
  else if ["false", "off", "no"].contains s then some false
  else none

/-- Digits, with a plus sign before them or without, of a number of at most 64 bits. -/
def natural? (s : String) : Option Nat :=
  let l := match s.toList with
    | '+' :: rest => rest
    | l => l
  if l.isEmpty || !l.all Char.isDigit then none
  else
    let n := l.foldl (fun n c ↦ 10 * n + (c.toNat - 48)) 0
    if n < 0x10000000000000000 then some n else none

def toText (place : String) : Tree → Result String
  | .text s => .ok s
  | .integer i => .ok (toString i)
  | .float x => .ok x.render
  | .boolean b => .ok (toString b)
  | _ => .error (.wrongType "a string" place)

def toFlag (place : String) : Tree → Result Bool
  | .boolean b => .ok b
  | .integer i => .ok (i != 0)
  | .float x => .ok !x.isZero
  | .text s =>
    if s = "1" then .ok true
    else if s = "0" then .ok false
    else match flagWord? s with
      | some b => .ok b
      | none => .error (.wrongType "a boolean" place)
  | _ => .error (.wrongType "a boolean" place)

def toNatural (place : String) : Tree → Result Nat
  | .integer i =>
    if i < 0 then .error (.wrongType "an unsigned 64 bit or less integer" place) else .ok i.toNat
  | .text s => match flagWord? s, natural? s with
    | some b, _ => .ok b.toNat
    | none, some n => .ok n
    | none, none => .error (.wrongType "an integer" place)
  | .boolean b => .ok b.toNat
  | .float x => .ok x.toNat
  | _ => .error (.wrongType "an integer" place)

def toPort (place : String) (v : Tree) : Result UInt16 :=
  match toNatural place v with
  | .error e => .error e
  | .ok n =>
    if n < 0x10000 then .ok (UInt16.ofNat n)
    else .error (.wrongType "an unsigned 16 bit integer" place)

def placeIn (place : String) (i : Nat) : String := place ++ "[" ++ toString i ++ "]"

def toTexts (place : String) : Tree → Result (List String)
  | .list l => l.zipIdx.mapM fun p ↦ toText (placeIn place p.2) p.1
  | v => .error (.unexpected v.describe "a sequence")

/-- A field of a section, with its name without underscores, which serves as well. -/
structure Field where
  name : String
  deriving DecidableEq

def Field.alias (f : Field) : String := String.ofList (f.name.toList.filter (· != '_'))

/-- A section of the settings, with the name of the structure that holds it. -/
structure Section where
  name : String
  structureName : String
  fields : List Field
  deriving DecidableEq

def networkSection : Section where
  name := "network"
  structureName := "Network"
  fields := [⟨"listen_addr"⟩, ⟨"listen_port_mainnet"⟩, ⟨"listen_port_testnet"⟩, ⟨"seeds_mainnet"⟩,
    ⟨"seeds_testnet"⟩]

def nodeSection : Section where
  name := "node"
  structureName := "Node"
  fields := [⟨"network_name"⟩, ⟨"data_dir"⟩, ⟨"memory_only"⟩]

def checkpointsSection : Section where
  name := "checkpoints"
  structureName := "Checkpoints"
  fields := [⟨"policy"⟩, ⟨"master_priv_key"⟩]

def sections : List Section := [networkSection, nodeSection, checkpointsSection]

/-- What is found for a field: a value with its place, nothing, or a fault. -/
abbrev Slot := Result (Option (String × Tree))

/-- The value for a field, in a table by its name, in a list by its number. -/
def slot (s : Section) (f : Field) (i : Nat) : Tree → Slot
  | .table entries => match entries.filter fun e ↦ e.1 = f.name || e.1 = f.alias with
    | [] => .ok none
    | [(k, t)] => .ok (some (s.name ++ "." ++ k, t))
    | _ => .error (.duplicateField f.name)
  | .list l => match l[i]? with
    | none => .error (.tooFew i s.structureName s.fields.length)
    | some t => .ok (some (placeIn s.name i, t))
  | t => .error (.unexpected t.describe ("struct " ++ s.structureName))

def fieldSlot (s : Section) (i : Nat) (t : Tree) : Slot :=
  match s.fields[i]? with
  | none => .ok none
  | some f => slot s f i t

/-- A field that need not be there; a place that nothing was put at counts as none. -/
def optionalAt {α : Type} (s : Section) (i : Nat) (of : String → Tree → Result α) (t : Tree) :
    Result (Option α) :=
  match fieldSlot s i t with
  | .error e => .error e
  | .ok none => .ok none
  | .ok (some (_, .missing)) => .ok none
  | .ok (some (place, v)) => (of place v).map some

def requiredAt {α : Type} (s : Section) (i : Nat) (of : String → Tree → Result α) (t : Tree) :
    Result α :=
  match fieldSlot s i t with
  | .error e => .error e
  | .ok none => .error (.missingField ((s.fields[i]?.map Field.name).getD ""))
  | .ok (some (place, v)) => of place v

def Network.ofTree (t : Tree) : Result Network := do
  let s := networkSection
  let ports := together (requiredAt s 1 toPort t) (requiredAt s 2 toPort t)
  let seeds := together (requiredAt s 3 toTexts t) (requiredAt s 4 toTexts t)
  let (address, (main, test), mainSeeds, testSeeds) ←
    together (requiredAt s 0 toText t) (together ports seeds)
  return ⟨address, main, test, mainSeeds, testSeeds⟩

def Node.ofTree (t : Tree) : Result Node := do
  let s := nodeSection
  let (name, directory, memoryOnly) ←
    together (requiredAt s 0 toText t)
      (together (requiredAt s 1 toText t) (requiredAt s 2 toFlag t))
  return ⟨name, directory, memoryOnly⟩

def Checkpoints.ofTree (t : Tree) : Result Checkpoints := do
  let s := checkpointsSection
  let (policy, key) ← together (requiredAt s 0 toText t) (optionalAt s 1 toText t)
  return ⟨policy, key⟩

/-- The part of a tree that a section is made of. -/
def sectionIn (t : Tree) (s : Section) : Tree :=
  ((Tree.entries (some t)).lookup s.name).getD (.table [])

def ofTree (t : Tree) : Result Settings := do
  return ⟨← Network.ofTree (sectionIn t networkSection), ← Node.ofTree (sectionIn t nodeSection),
    ← Checkpoints.ofTree (sectionIn t checkpointsSection)⟩

end ChainAnchor.Settings
