import ChainAnchor.Codec.Basic

namespace ChainAnchor

namespace Packed

def encode (n : Nat) : Bytes :=
  if n < 251 then [UInt8.ofNat n]
  else if n < 0x10000 then 251 :: Bytes.ofNatLE 2 n
  else if n < 0x100000000 then 252 :: Bytes.ofNatLE 4 n
  else 253 :: Bytes.ofNatLE 8 n

def width? (marker : UInt8) : Option IntWidth :=
  if marker = 251 then some .w16
  else if marker = 252 then some .w32
  else if marker = 253 then some .w64
  else if marker = 254 then some .w128
  else none

def decode (signed : Bool) (w : IntWidth) : Decoder Nat :=
  Decoder.andThen Reader.byte fun marker ↦
    if marker < 251 then Decoder.pure marker.toNat
    else match width? marker with
      | none => Decoder.fail (.wrongInteger signed w none)
      | some found =>
        if found.size ≤ w.size then (Reader.take found.size).map Bytes.toNatLE
        else Decoder.fail (.wrongInteger signed w (some found))

/-- Folds the integers onto the naturals, by magnitude. -/
def fold (i : Int) : Nat := if 0 ≤ i then 2 * i.natAbs else 2 * i.natAbs - 1

def unfold (n : Nat) : Int := if n % 2 = 0 then (n / 2 : Nat) else -((n / 2 : Nat) + 1 : Int)

end Packed

namespace Codec

def natural (w : IntWidth) : Codec Nat where
  encode
    | .storage, n => Packed.encode n
    | .wire, n => Bytes.ofNatLE w.size n
  decode
    | .storage => (Packed.decode false w).claiming w.size
    | .wire => ((Reader.take w.size).map Bytes.toNatLE).claiming w.size

/-- The number that a word of two's complement stands for. -/
def signedValue (w : IntWidth) (n : Nat) : Int :=
  if n < w.values / 2 then n else (n : Int) - w.values

def integer (w : IntWidth) : Codec Int where
  encode
    | .storage, i => Packed.encode (Packed.fold i)
    | .wire, i => Bytes.ofNatLE w.size (i % w.values).toNat
  decode
    | .storage => ((Packed.decode true w).map Packed.unfold).claiming w.size
    | .wire => ((Reader.take w.size).map fun b ↦ signedValue w (Bytes.toNatLE b)).claiming w.size

/-- A byte stands for itself in both formats. -/
def uint8 : Codec UInt8 where
  encode _ x := [x]
  decode _ := Decoder.claiming 1 Reader.byte

def int8 : Codec Int8 := uint8.via Int8.toUInt8 UInt8.toInt8

def uint16 : Codec UInt16 := (natural .w16).via UInt16.toNat UInt16.ofNat

def uint32 : Codec UInt32 := (natural .w32).via UInt32.toNat UInt32.ofNat

def uint64 : Codec UInt64 := (natural .w64).via UInt64.toNat UInt64.ofNat

def int16 : Codec Int16 := (integer .w16).via Int16.toInt Int16.ofInt

def int32 : Codec Int32 := (integer .w32).via Int32.toInt Int32.ofInt

def int64 : Codec Int64 := (integer .w64).via Int64.toInt Int64.ofInt

end Codec

end ChainAnchor
