namespace ChainAnchor

inductive SettingsError
  | malformedFile
  /-- The value at a place cannot be turned into one of the type expected there. -/
  | wrongType (expected place : String)
  /-- There is another kind of value than the one expected. -/
  | unexpected (found expected : String)
  | duplicateField (name : String)
  | missingField (name : String)
  | tooFew (found : Nat) (owner : String) (fields : Nat)
  deriving DecidableEq

def SettingsError.message : SettingsError → String
  | malformedFile => "malformed configuration file"
  | wrongType expected place => "expected " ++ expected ++ " for " ++ place
  | unexpected found expected => "invalid type: " ++ found ++ ", expected " ++ expected
  | duplicateField name => "duplicate field \x60" ++ name ++ "\x60"
  | missingField name => "missing field \x60" ++ name ++ "\x60"
  | tooFew found name fields =>
    "invalid length " ++ toString found ++ ", expected struct " ++ name ++ " with " ++
      toString fields ++ " elements"

def SettingsError.isMissingField : SettingsError → Bool
  | missingField _ => true
  | _ => false

inductive InvalidSettings
  | noNetworkName
  | equalPorts
  | noDataDirectory
  | unknownPolicy
  | malformedKey
  deriving DecidableEq, Repr

end ChainAnchor
