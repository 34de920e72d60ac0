namespace ChainAnchor

abbrev Keyed (α : Type) := List (String × α)

namespace Keyed

variable {α : Type}

/-- Puts a value under a name, in place of the one there is. -/
def put (l : Keyed α) (name : String) (a : α) : Keyed α :=
  match l with
  | [] => [(name, a)]
  | (k, b) :: rest => if k = name then (k, a) :: rest else (k, b) :: put rest name a

/-- Takes out the first value under a name. -/
def remove (l : Keyed α) (name : String) : Keyed α := l.eraseP (·.1 == name)

end Keyed

end ChainAnchor
