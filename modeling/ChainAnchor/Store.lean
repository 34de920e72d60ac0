import ChainAnchor.Codec.Error
import Std.Data.ExtTreeMap

namespace ChainAnchor

/-- The operations of a store, by which failures are named. -/
inductive Call
  | begin
  | write
  | commit
  | abort
  | read
  deriving DecidableEq, Repr

def Call.name : Call → String
  | .begin => "begin"
  | .write => "write"
  | .commit => "commit"
  | .abort => "abort"
  | .read => "read"

inductive StoreError
  | noTransaction
  | transactionInProgress
  /-- A stored value does not have the form of what is kept under its key. -/
  | malformed (cause : DecodeError)
  /-- The medium below the store let a call down. -/
  | failed (call : Call)
  deriving DecidableEq, Repr

def StoreError.message : StoreError → String
  | noTransaction => "NoTransaction"
  | transactionInProgress => "TransactionInProgress"
  | malformed e => "BincodeDecode(" ++ e.message ++ ")"
  | failed c => "Error(\"" ++ c.name ++ " failed\")"

structure Store where
  committed : Std.ExtTreeMap Bytes Bytes
  /-- The writes of the open transaction, the earliest one first. -/
  staged : Option (List (Bytes × Bytes))

namespace Store

def empty : Store := ⟨∅, none⟩

def begin (s : Store) : Except StoreError Store :=
  match s.staged with
  | some _ => .error .transactionInProgress
  | none => .ok { s with staged := some [] }

def write (s : Store) (key val : Bytes) : Except StoreError Store :=
  match s.staged with
  | none => .error .noTransaction
  | some writes => .ok { s with staged := some (writes ++ [(key, val)]) }

def commit (s : Store) : Except StoreError Store :=
  match s.staged with
  | none => .error .noTransaction
  | some writes => .ok ⟨writes.foldl (fun m w ↦ m.insert w.1 w.2) s.committed, none⟩

def abort (s : Store) : Except StoreError Store :=
  match s.staged with
  | none => .error .noTransaction
  | some _ => .ok { s with staged := none }

def get? (s : Store) (key : Bytes) : Option Bytes := s.committed[key]?

end Store

end ChainAnchor
