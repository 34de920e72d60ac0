import ChainAnchor.Settings.Tree
import ChainAnchor.Text.Scanner

namespace ChainAnchor.Settings

inductive Step
  | field (name : String)
  | item (i : Int)
  deriving DecidableEq, Repr

namespace Step

open Scanner

/-- A name may hold spaces, at its ends too, but no other blanks. -/
def isNameChar (c : Char) : Bool := c.isAlphanum || c == '_' || c == '-' || c == ' '

def name : Scanner Step := do
  let l ← span1 isNameChar
  return field (String.ofList l)

def blanks : Scanner Unit := do
  let _ ← span fun c ↦ c == ' ' || c == '\t'
  return ()

/-- A number in brackets, which must fit into 64 bits. -/
def number : Scanner Step := do
  char '['
  blanks
  let minus ← Scanner.optional (char '-')
  let l ← span1 Char.isDigit
  blanks
  char ']'
  let n : Nat := l.foldl (fun n c ↦ 10 * n + (c.toNat - 48)) 0
  let i : Int := if minus.isSome then -(n : Int) else n
  when (-0x8000000000000000 ≤ i && i < 0x8000000000000000) (pure (item i))

def dotted : Scanner Step := do
  char '.'
  name

def path : Scanner (List Step) := do
  let s ← name
  let l ← many (or dotted number)
  finished
  return s :: l

/-- The steps to a place; a text that does not describe any is a name. -/
def ofText (s : String) : List Step :=
  match path s.toList with
  | some (l, _) => l
  | none => [field s]

end Step

namespace Tree

/-- The position in a list of a length that a number stands for. -/
def position (length : Nat) (i : Int) : Nat := if 0 ≤ i then i.toNat else length - i.natAbs

def extended (l : List Tree) (n : Nat) : List Tree := l ++ List.replicate (n + 1 - l.length) missing

/-- Puts a value at a place.  It is laid over a value with a name, and replaces one with a number.
-/
def putAt : List Step → Tree → Option Tree → Tree
  | [], t, old => t.onto old
  | .field k :: rest, t, old =>
    let l := entries old
    table (l.put (lowerCase k) (putAt rest t (l.lookup (lowerCase k))))
  | .item i :: rest, t, old =>
    let n := position (items old).length i
    let l := extended (items old) n
    list (l.set n (if rest.isEmpty then t else putAt rest t l[n]?))

def put (t : Tree) (place : String) (new : Tree) : Tree := putAt (Step.ofText place) new (some t)

def putAll (t : Tree) (l : Keyed Tree) : Tree := l.foldl (fun t e ↦ t.put e.1 e.2) t

end Tree

end ChainAnchor.Settings
