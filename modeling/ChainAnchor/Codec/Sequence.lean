import ChainAnchor.Codec.Integer
import ChainAnchor.Bytes.Digest

namespace ChainAnchor

namespace Codec

def boolean : Codec Bool where
  encode _ b := [if b then 1 else 0]
  decode f := (uint8.decode f).andThen fun x ↦
    if x = 0 then Decoder.pure false
    else if x = 1 then Decoder.pure true
    else Decoder.fail (.wrongBoolean x)

def optional {α : Type} (c : Codec α) : Codec (Option α) where
  encode f
    | none => [0]
    | some a => 1 :: c.encode f a
  decode f := (uint8.decode f).andThen fun x ↦
    if x = 0 then Decoder.pure none
    else if x = 1 then (c.decode f).map some
    else Decoder.fail (.wrongOption x)

/-- The bytes alone, of which there is always the same number. -/
def digest (n : Nat) : Codec (Digest n) where
  encode _ d := d.bytes
  decode _ := ((Reader.take n).map Digest.ofPrefix).claiming n

def length : Codec Nat := natural .w64

def bytes : Codec Bytes where
  encode f b := length.encode f b.length ++ b
  decode f := (length.decode f).andThen fun n ↦ (Reader.take n).claiming n

def text : Codec String where
  encode f s := bytes.encode f (Utf8.encode s)
  decode f := (bytes.decode f).andThen fun b ↦
    match Utf8.decode b with
    | .ok s => Decoder.pure s
    | .error fault => Decoder.fail (.notText fault)

/-- A list of values that take `size` bytes each in memory. -/
def list {α : Type} (size : Nat) (c : Codec α) : Codec (List α) where
  encode f l := length.encode f l.length ++ l.flatMap (c.encode f)
  decode f := (length.decode f).andThen fun n ↦
    ((((c.decode f).releasing size).replicate n).claiming (n * size))

end Codec

end ChainAnchor
