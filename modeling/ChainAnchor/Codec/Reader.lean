import ChainAnchor.Codec.Error

namespace ChainAnchor

structure Reader where
  rest : Bytes
  budget : Nat
  deriving DecidableEq

abbrev Decoder (α : Type) := Reader → Except DecodeError (α × Reader)

namespace Reader

def claim (n : Nat) (r : Reader) : Except DecodeError Reader :=
  if n ≤ r.budget then .ok { r with budget := r.budget - n } else .error .limitExceeded

def release (n : Nat) (r : Reader) : Reader := { r with budget := r.budget + n }

def take (n : Nat) : Decoder Bytes := fun r ↦
  let taken := r.rest.take n
  if taken.length < n then .error (.unexpectedEnd (n - taken.length))
  else .ok (taken, { r with rest := r.rest.drop n })

def byte : Decoder UInt8 := fun r ↦
  match r.rest with
  | [] => .error (.unexpectedEnd 1)
  | x :: rest => .ok (x, { r with rest := rest })

end Reader

namespace Decoder

variable {α β : Type}

def map (f : α → β) (d : Decoder α) : Decoder β := fun r ↦
  match d r with
  | .error e => .error e
  | .ok (a, r) => .ok (f a, r)

def andThen (d : Decoder α) (f : α → Decoder β) : Decoder β := fun r ↦
  match d r with
  | .error e => .error e
  | .ok (a, r) => f a r

def claiming (n : Nat) (d : Decoder α) : Decoder α := fun r ↦
  match r.claim n with
  | .error e => .error e
  | .ok r => d r

def releasing (n : Nat) (d : Decoder α) : Decoder α := fun r ↦ d (r.release n)

def fail (e : DecodeError) : Decoder α := fun _ ↦ .error e

def pure (a : α) : Decoder α := fun r ↦ .ok (a, r)

def replicate (d : Decoder α) : Nat → Decoder (List α)
  | 0 => pure []
  | n + 1 => d.andThen fun a ↦ (replicate d n).map (a :: ·)

end Decoder

end ChainAnchor
