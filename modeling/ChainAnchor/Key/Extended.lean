import ChainAnchor.Key.Private

namespace ChainAnchor

def extendedKeySize : Nat := 74

abbrev Fingerprint := Digest 4

def PublicKey.fingerprint (k : PublicKey) : Fingerprint := Digest.ofPrefix k.id.bytes

structure Position where
  depth : UInt8
  fingerprint : Fingerprint
  child : UInt32
  chainCode : ChainCode
  deriving DecidableEq

namespace Position

def encode (p : Position) : Bytes :=
  p.depth :: (p.fingerprint.bytes ++ Bytes.ofNatBE 4 p.child.toNat ++ p.chainCode.bytes)

def decode (b : Digest 74) : Position where
  depth := b.bytes.headD 0
  fingerprint := Digest.ofPrefix (b.bytes.drop 1)
  child := UInt32.ofNat (Bytes.toNatBE ((b.bytes.drop 5).take 4))
  chainCode := Digest.ofPrefix (b.bytes.drop 9)

/-- The position of a child, unless the tree is as deep as it can be. -/
def below? (p : Position) (parent : Fingerprint) (child : UInt32) (code : ChainCode) :
    Option Position :=
  if p.depth = 255 then none else some ⟨p.depth + 1, parent, child, code⟩

end Position

structure ExtendedPublicKey where
  position : Position
  key : PublicKey
  deriving DecidableEq

structure ExtendedPrivateKey where
  position : Position
  key : PrivateKey
  deriving DecidableEq

namespace ExtendedPublicKey

/-- Only a compressed key has the size that the encoding needs. -/
def new (position : Position) (key : PublicKey) : Except KeyError ExtendedPublicKey :=
  if key.isCompressed then .ok ⟨position, key⟩ else .error .invalidPublicKey

def derive (x : ExtendedPublicKey) (child : UInt32) : Option ExtendedPublicKey :=
  match x.key.derive child x.position.chainCode with
  | none => none
  | some (key, code) => (x.position.below? x.key.fingerprint child code).map (⟨·, key⟩)

/-- The encoding, of a key that has the size for it. -/
def encode? (x : ExtendedPublicKey) : Option (Digest 74) :=
  Digest.ofBytes? (x.position.encode ++ x.key.bytes)

def decode (b : Digest 74) : Except KeyError ExtendedPublicKey :=
  new (Position.decode b) (PublicKey.ofBytes (b.bytes.drop 41))

def describe (x : ExtendedPublicKey) : String :=
  "ExtPubKey \x7b depth: " ++ toString x.position.depth.toNat ++ ", fingerprint: [" ++
    String.intercalate ", " (x.position.fingerprint.bytes.map fun b ↦ toString b.toNat) ++
    "], child: " ++ toString x.position.child.toNat ++ ", chain_code: " ++
    x.position.chainCode.describe "ChainCode" ++ ", pubkey: " ++ x.key.describe ++ " \x7d"

end ExtendedPublicKey

namespace ExtendedPrivateKey

def seedKey : Bytes := Utf8.encode "Bitcoin seed"

def master (seed : Bytes) : Except KeyError ExtendedPrivateKey :=
  let out := Hmac.sha512 seedKey seed
  match PrivateKey.ofBytes (leftHalf out).bytes true with
  | .error e => .error e
  | .ok key => .ok ⟨⟨0, Digest.zero, 0, rightHalf out⟩, key⟩

/-- The public key in the form that fingerprints are made of. -/
def compressedKey (x : ExtendedPrivateKey) : Except KeyError PublicKey :=
  match x.key.publicKey with
  | .error e => .error e
  | .ok pub => match pub.compress with
    | none => .error .invalidPublicKey
    | some pub => .ok pub

def derive (x : ExtendedPrivateKey) (child : UInt32) : Option ExtendedPrivateKey :=
  match x.compressedKey with
  | .error _ => none
  | .ok parent => match x.key.derive child x.position.chainCode with
    | none => none
    | some (key, code) => (x.position.below? parent.fingerprint child code).map (⟨·, key⟩)

def neuter (x : ExtendedPrivateKey) : Except KeyError ExtendedPublicKey :=
  match x.compressedKey with
  | .error e => .error e
  | .ok pub => ExtendedPublicKey.new x.position pub

def encode (x : ExtendedPrivateKey) : Digest 74 :=
  ⟨x.position.encode ++ 0 :: x.key.secret.bytes, by
    simp [Position.encode, x.position.fingerprint.length_eq, x.position.chainCode.length_eq,
      x.key.secret.length_eq]⟩

def decode (b : Digest 74) : Except KeyError ExtendedPrivateKey :=
  if (b.bytes.drop 41).headD 0 ≠ 0 then .error .missingMarker
  else match PrivateKey.ofBytes (b.bytes.drop 42) true with
    | .error e => .error e
    | .ok key => .ok ⟨Position.decode b, key⟩

end ExtendedPrivateKey

end ChainAnchor
