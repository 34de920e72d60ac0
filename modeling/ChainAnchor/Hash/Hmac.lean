import ChainAnchor.Hash.Sha256
import ChainAnchor.Hash.Sha512

namespace ChainAnchor

namespace Hmac

/-- The key filled with zeros to one block; a key longer than a block is hashed first. -/
def blockKey (hash : Bytes → Bytes) (block : Nat) (key : Bytes) : Bytes :=
  let k := if key.length > block then hash key else key
  k ++ List.replicate (block - k.length) 0

def keyed (block : Nat) {n : Nat} (hash : Bytes → Digest n) (key message : Bytes) : Digest n :=
  let k := blockKey (fun b ↦ (hash b).bytes) block key
  hash (k.map (· ^^^ 0x5c) ++ (hash (k.map (· ^^^ 0x36) ++ message)).bytes)

def sha256 (key message : Bytes) : Digest 32 := keyed 64 Sha256.hash key message

def sha512 (key message : Bytes) : Digest 64 := keyed 128 Sha512.hash key message

end Hmac

end ChainAnchor
