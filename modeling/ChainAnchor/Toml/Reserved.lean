import ChainAnchor.Toml.Scalar

namespace ChainAnchor.Toml

open Scanner

def dateKey : String := "$__toml_private_datetime"

/-- A date or a time that is the whole of a text, in the form that one has as a value. -/
def momentOfText? (s : String) : Option String :=
  let whole : Scanner String := do
    let m ← moment
    finished
    return m
  (whole s.toList).map Prod.fst

/-- The date that a table stands for, if it stands for one. -/
def dateOf? : Entries → Option (Option String)
  | (k, v) :: _ =>
    if k = dateKey then some (match v with | .text s => momentOfText? s | _ => none) else none
  | [] => none

mutual

/-- The value with its dates in place of the tables that stand for them; there is none if the text
of a date is not one. -/
def Value.withDates? : Value → Option Value
  | .list growing l => (itemsWithDates? l).map (.list growing)
  | .table kind l => match dateOf? l with
    | some date => date.map .moment
    | none => (entriesWithDates? l).map (.table kind)
  | v => some v

def itemsWithDates? : List Value → Option (List Value)
  | [] => some []
  | v :: rest => match v.withDates?, itemsWithDates? rest with
    | some v, some rest => some (v :: rest)
    | _, _ => none

def entriesWithDates? : List (String × Value) → Option (List (String × Value))
  | [] => some []
  | (k, v) :: rest => match v.withDates?, entriesWithDates? rest with
    | some v, some rest => some ((k, v) :: rest)
    | _, _ => none

end

end ChainAnchor.Toml
