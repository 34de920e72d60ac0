import ChainAnchor.Number.Mpi

namespace ChainAnchor

namespace Compact

/-- One byte holds the size of the MPI body and the other three its first bytes; whatever the body
holds beyond them is lost. -/
def ofInt (a : Int) : UInt32 :=
  let body := Mpi.body a
  UInt32.ofNat (0x1000000 * body.length + Bytes.toNatBE ((body ++ [0, 0, 0]).take 3))

def toInt (c : UInt32) : Int :=
  let size := c.toNat / 0x1000000
  Mpi.ofBody ((Bytes.ofNatBE 3 c.toNat ++ List.replicate (size - 3) 0).take size)

end Compact

end ChainAnchor
