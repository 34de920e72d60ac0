namespace ChainAnchor

inductive Policy
  | strict
  | advisory
  | permissive
  deriving DecidableEq, Repr

namespace Policy

instance : Inhabited Policy := ⟨strict⟩

def name : Policy → String
  | strict => "strict"
  | advisory => "advisory"
  | permissive => "permissive"

def describe : Policy → String
  | strict => "Strict"
  | advisory => "Advisory"
  | permissive => "Permissive"

def expectation : String :=
  "invalid checkpoint policy, expected strict, advisory or permissive"

def ofName? (s : String) : Option Policy := [strict, advisory, permissive].find? (·.name = s)

end Policy

end ChainAnchor
