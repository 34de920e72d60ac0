import Std.Data.ExtTreeMap
import Std.Data.ExtTreeSet

namespace ChainAnchor

/-- A stretch of memory; an empty one still touches the page of its address. -/
structure Region where
  address : UInt64
  length : UInt64
  deriving DecidableEq, Repr

/-- The address of the page that an address lies on, for pages whose size is a power of two. -/
def pageBase (size address : UInt64) : UInt64 := address &&& ~~~(size - 1)

namespace Region

def extent (r : Region) : UInt64 := if r.length = 0 then 1 else r.length

def firstPage (size : UInt64) (r : Region) : UInt64 := pageBase size r.address

def lastPage (size : UInt64) (r : Region) : UInt64 := pageBase size (r.address + r.extent - 1)

def pages (size : UInt64) (r : Region) : List UInt64 :=
  if r.lastPage size < r.firstPage size then []
  else (List.range (((r.lastPage size - r.firstPage size) / size).toNat + 1)).map fun i ↦
    r.firstPage size + UInt64.ofNat i * size

end Region

/-- The regions on each page are counted, since the system holds a page or does not, however often
it is asked; a page is given back with the last of them. -/
structure PageLock where
  /-- The number of locked regions on each page; pages without any are left out. -/
  users : Std.ExtTreeMap UInt64 Nat
  /-- The pages that the system holds in memory. -/
  held : Std.ExtTreeSet UInt64

namespace PageLock

def empty : PageLock := ⟨∅, ∅⟩

def count (p : PageLock) (page : UInt64) : Nat := p.users.getD page 0

/-- Counts one more region on a page, which the system is asked to hold with the first one. -/
def retain (p : PageLock) (page : UInt64) : PageLock :=
  ⟨p.users.insert page (p.count page + 1),
    if p.count page = 0 then p.held.insert page else p.held⟩

def release (p : PageLock) (page : UInt64) : PageLock :=
  match p.users[page]? with
  | none => p
  | some n =>
    if n - 1 = 0 then ⟨p.users.erase page, p.held.erase page⟩
    else { p with users := p.users.insert page (n - 1) }

def releaseAll (p : PageLock) (pages : List UInt64) : PageLock := pages.foldl release p

/-- Retains pages one after the other.  If the system does not grant one, those before it are
released again. -/
def retainAll (grants : UInt64 → Bool) : List UInt64 → List UInt64 → PageLock → Bool × PageLock
  | _, [], p => (true, p)
  | done, page :: rest, p =>
    if p.count page = 0 && !grants page then (false, p.releaseAll done)
    else retainAll grants (done ++ [page]) rest (p.retain page)

/-- Locks a region, where the system grants pages as it likes; says whether all were granted. -/
def lock (p : PageLock) (size : UInt64) (grants : UInt64 → Bool) (r : Region) : Bool × PageLock :=
  retainAll grants [] (r.pages size) p

def unlock (p : PageLock) (size : UInt64) (r : Region) : PageLock := p.releaseAll (r.pages size)

end PageLock

end ChainAnchor
