import ChainAnchor.Text.Quote
import ChainAnchor.Toml.Value

namespace ChainAnchor

namespace Settings

inductive Tree
  /-- A place in a list that nothing was put at. -/
  | missing
  | text (s : String)
  | integer (i : Int)
  | float (x : Binary64)
  | boolean (b : Bool)
  | list (items : List Tree)
  | table (entries : List (String × Tree))
  deriving Inhabited

/-- The small form of a character in a name.  Besides the capital letters of the alphabet one sign
has a letter of the alphabet as its small form. -/
def lowerChar (c : Char) : Char := if c.toNat = 0x212A then 'k' else c.toLower

def lowerCase (s : String) : String := s.map lowerChar

namespace Tree

/-- The kind of a value and, if it is short, the value. -/
def describe : Tree → String
  | missing => "unit value"
  | text s => "string " ++ Text.quote s
  | integer i => "integer \x60" ++ toString i ++ "\x60"
  | float x => "floating point \x60" ++ x.describe ++ "\x60"
  | boolean b => "boolean \x60" ++ toString b ++ "\x60"
  | list _ => "sequence"
  | table _ => "map"

/-- The entries of a table; anything else has none. -/
def entries : Option Tree → Keyed Tree
  | some (table l) => l
  | _ => []

/-- The items of a list; anything else has none. -/
def items : Option Tree → List Tree
  | some (list l) => l
  | _ => []

mutual

def ofValue : Toml.Value → Tree
  | .text s => text s
  | .integer i => integer i
  | .float x => float x
  | .boolean b => boolean b
  | .moment s => text s
  | .list _ l => list (ofValues l)
  | .table _ l => table (ofEntries l)

def ofValues : List Toml.Value → List Tree
  | [] => []
  | v :: rest => ofValue v :: ofValues rest

def ofEntries : List (String × Toml.Value) → List (String × Tree)
  | [] => []
  | (k, v) :: rest => (k, ofValue v) :: ofEntries rest

end

mutual

/-- What is at a place after a value is laid over what was there, if anything.  An empty table
changes nothing; the names of the others count as small. -/
def onto : Tree → Option Tree → Tree
  | table l, old => if l.isEmpty then old.getD (table []) else table (entriesOnto l (entries old))
  | t, _ => t

def entriesOnto : List (String × Tree) → Keyed Tree → Keyed Tree
  | [], old => old
  | (k, t) :: rest, old =>
    entriesOnto rest (old.put (lowerCase k) (t.onto (old.lookup (lowerCase k))))

end

end Tree

end Settings

end ChainAnchor
