import ChainAnchor.Number.Binary64
import ChainAnchor.Text.Keyed

namespace ChainAnchor.Toml

/-- How a table came about decides whether it can be extended. -/
inductive TableKind
  /-- By a header of a table inside it. -/
  | implied
  /-- By a header of its own. -/
  | headed
  /-- By a dotted key. -/
  | dotted
  /-- As a value, which is complete. -/
  | closed
  deriving DecidableEq, Repr

inductive Value
  | text (s : String)
  | integer (i : Int)
  | float (x : Binary64)
  | boolean (b : Bool)
  /-- A date, a time of day or both, as text in standard form. -/
  | moment (s : String)
  /-- Values in brackets, or tables under headers, to which more can be added. -/
  | list (growing : Bool) (items : List Value)
  | table (kind : TableKind) (entries : List (String × Value))
  deriving Inhabited

abbrev Entries := Keyed Value

end ChainAnchor.Toml
