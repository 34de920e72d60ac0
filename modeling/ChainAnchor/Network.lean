import ChainAnchor.Key.Public

namespace ChainAnchor

structure Network where
  name : String
  genesis : Hash
  genesisTime : Int64
  /-- The hardened checkpoints: the block at each of these heights is known in advance. -/
  hardened : Std.ExtTreeMap UInt64 Hash
  masterKey : PublicKey
  enforces : Bool

namespace Network

def key (s : String) : PublicKey := PublicKey.ofBytes ((Hex.decode? s).getD [])

/-- A table of hardened checkpoints; of two at one height the later one counts. -/
def table (l : List (UInt64 × Hash)) : Std.ExtTreeMap UInt64 Hash :=
  l.foldl (fun t p ↦ t.insert p.1 p.2) ∅

def mainName : String := "mainnet"

def mainGenesis : Hash :=
  Digest.constant "000000003c38123a8a6b19df6742e0a529b9306e9233067dbcbc06d2d5cebf0d"

def testGenesis : Hash :=
  Digest.constant "0000000017ce3fa68ee5b9c8467fdda8393c1d7539a0f7356d5a5a97c722acad"

def main : Network where
  name := mainName
  genesis := mainGenesis
  genesisTime := 1667260800
  hardened := table [
    (0, mainGenesis),
    (2000, Digest.constant "00000000f2ba6758a5bc2e0a33de8e26ada2faf7b362ef26ec493c1fd55792a2"),
    (10000, Digest.constant "000000005f1d72a09ac115c6e63e8874d5e5b746501adb1f87be4153dff35160"),
    (25000, Digest.constant "0000000061bf2e62e075a762b644a16b87bf90c9136452b541aa8e2074f360cf"),
    (42000, Digest.constant "000000009b2d2e96b8793b91bee0d6d9742f0987d9811dd5ce4b2ddde051d858")]
  masterKey := key <|
    "04fc9702847840aaf195de8442ebecedf5b095cdbb9bc716bda9110971b28a49e0" ++
    "ead8564ff0db22209e0374782c093bb899692d524e9d6a6956e7c5ecbcd68284"
  enforces := true

def test (name : String) : Network where
  name := name
  genesis := testGenesis
  genesisTime := 1667347200
  hardened := table [
    (0, testGenesis),
    (500, Digest.constant "0000000044e7c288f5a44e638bc8f1b4c906cfa5aacf7d056248967426ce9afe"),
    (2500, Digest.constant "00000000c2c4694884fa16b7c3d3ea1e876892608731bed6a58a2c7f403a12aa")]
  masterKey := key <|
    "04302390343f91cc401d56d68b123028bf52e5fca1939df127f63c6467cdf9c8e2" ++
    "c14b61104cf817d0b780da337893ecc4aaff1309e536162dabbdb45200ca2b0a"
  enforces := false

def named (name : String) : Network := if name = mainName then main else test name

instance : Inhabited Network := ⟨test "testnet"⟩

def isTest (w : Network) : Bool := w.name != mainName

/-- The hardened checkpoints, the highest one first. -/
def descending (w : Network) : List (UInt64 × Hash) := w.hardened.toList.reverse

/-- The height that the chain has at least: that of the highest hardened checkpoint. -/
def expectedHeight (w : Network) : UInt64 :=
  match w.descending with
  | [] => 0
  | (height, _) :: _ => height

def admits (w : Network) (height : UInt64) (h : Hash) : Bool :=
  match w.hardened[height]? with
  | none => true
  | some expected => expected = h

end Network

end ChainAnchor
