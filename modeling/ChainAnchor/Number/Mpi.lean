import ChainAnchor.Number.Arithmetic

namespace ChainAnchor

namespace Mpi

/-- The magnitude, most significant byte first, with the sign in the top bit of the first byte; a
byte is put in front if the magnitude needs that bit itself. -/
def body (a : Int) : Bytes :=
  let sign : UInt8 := if a < 0 then 0x80 else 0
  match Bytes.minimalBE a.natAbs with
  | [] => []
  | x :: rest => if 0x80 ≤ x then sign :: x :: rest else (sign ||| x) :: rest

def ofBody : Bytes → Int
  | [] => 0
  | x :: rest =>
    let magnitude : Int := Bytes.toNatBE ((x &&& 0x7f) :: rest)
    if 0x80 ≤ x then -magnitude else magnitude

def encode (a : Int) : Bytes := Bytes.ofNatBE 4 (body a).length ++ body a

def decode (b : Bytes) : Except NumberError Int :=
  if b.length < 4 then .error .missingLength
  else if b.length - 4 ≠ Bytes.toNatBE (b.take 4) then .error .lengthMismatch
  else .ok (ofBody (b.drop 4))

/-- The body with its least significant byte first, as scripts hold numbers. -/
def scriptBytes (a : Int) : Bytes := (body a).reverse

def ofScriptBytes (b : Bytes) : Int := ofBody b.reverse

end Mpi

end ChainAnchor
