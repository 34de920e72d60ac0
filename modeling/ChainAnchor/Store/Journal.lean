import ChainAnchor.Codec.Sequence
import ChainAnchor.Store

namespace ChainAnchor

/-- A store on a medium that may fail.  Which calls fail is given in advance, by their number and
kind, so that every pattern of failures is a value. -/
structure Journal where
  store : Store
  calls : Nat
  fails : Nat → Call → Bool

namespace Journal

def ofStore (s : Store) : Journal := ⟨s, 0, fun _ _ ↦ false⟩

def empty : Journal := ofStore .empty

/-- The result of a call that would change the store, which otherwise stays as it is. -/
def settle (j : Journal) : Except StoreError Store → Except StoreError Unit × Journal
  | .ok s => (.ok (), { j with store := s, calls := j.calls + 1 })
  | .error e => (.error e, { j with calls := j.calls + 1 })

def isFailing (j : Journal) (c : Call) : Bool := j.fails j.calls c

def begin (j : Journal) : Except StoreError Unit × Journal :=
  j.settle (if j.isFailing .begin then .error (.failed .begin) else j.store.begin)

def write (j : Journal) (key val : Bytes) : Except StoreError Unit × Journal :=
  j.settle (if j.isFailing .write then .error (.failed .write) else j.store.write key val)

def abort (j : Journal) : Except StoreError Unit × Journal :=
  j.settle (if j.isFailing .abort then .error (.failed .abort) else j.store.abort)

def commit (j : Journal) : Except StoreError Unit × Journal :=
  if j.isFailing .commit then
    match j.store.abort with
    | .error e => j.settle (.error e)
    | .ok s => { j with store := s }.settle (.error (.failed .commit))
  else j.settle j.store.commit

def read (j : Journal) (key : Bytes) : Except StoreError (Option Bytes) × Journal :=
  (if j.isFailing .read then .error (.failed .read) else .ok (j.store.get? key),
    { j with calls := j.calls + 1 })

def put (j : Journal) (key val : Bytes) : Except StoreError Unit × Journal :=
  match j.begin with
  | (.error e, j) => (.error e, j)
  | (.ok (), j) => match j.write key val with
    | (.error e, j) => (.error e, j.abort.2)
    | (.ok (), j) => j.commit

def readAs {α : Type} (c : Codec α) (j : Journal) (key : Bytes) :
    Except StoreError (Option α) × Journal :=
  match j.read key with
  | (.error e, j) => (.error e, j)
  | (.ok none, j) => (.ok none, j)
  | (.ok (some b), j) => match c.load b with
    | .error e => (.error (.malformed e), j)
    | .ok a => (.ok (some a), j)

def checkpointKey : Bytes := Utf8.encode "hashSyncCheckpoint"

def masterKeyKey : Bytes := Utf8.encode "strCheckpointPubKey"

def writeCheckpoint (j : Journal) (h : Hash) : Except StoreError Unit × Journal :=
  j.write checkpointKey ((Codec.digest 32).store h)

def writeMasterKey (j : Journal) (s : String) : Except StoreError Unit × Journal :=
  j.write masterKeyKey (Codec.text.store s)

def putCheckpoint (j : Journal) (h : Hash) : Except StoreError Unit × Journal :=
  j.put checkpointKey ((Codec.digest 32).store h)

def putMasterKey (j : Journal) (s : String) : Except StoreError Unit × Journal :=
  j.put masterKeyKey (Codec.text.store s)

def checkpoint (j : Journal) : Except StoreError (Option Hash) × Journal :=
  j.readAs (Codec.digest 32) checkpointKey

def masterKey (j : Journal) : Except StoreError (Option String) × Journal :=
  j.readAs Codec.text masterKeyKey

end Journal

end ChainAnchor
