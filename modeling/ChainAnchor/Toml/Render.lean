import ChainAnchor.Toml.Scalar

namespace ChainAnchor.Toml

def paddedHex (width n : Nat) : List Char :=
  let l := Nat.toDigits 16 n
  List.replicate (width - l.length) '0' ++ l

def escape (c : Char) : List Char :=
  if c = '"' || c = '\\' then ['\\', c]
  else if isPrintable c then [c]
  else '\\' :: 'u' :: paddedHex 4 c.toNat

/-- A text in single quotes where they do, else in double quotes with escapes. -/
def renderText (s : String) : String :=
  if s.toList.all fun c ↦ isPrintable c && c != '\'' then "'" ++ s ++ "'"
  else String.ofList ('"' :: s.toList.flatMap escape ++ ['"'])

mutual

def Value.render : Value → String
  | .text s => renderText s
  | .integer i => toString i
  | .float x => x.describe
  | .boolean b => toString b
  | .moment s => s
  | .list _ l => "[" ++ String.intercalate ", " (renderItems l) ++ "]"
  | .table _ l => "\x7b" ++ String.intercalate ", " (renderEntries l) ++ "\x7d"

def renderItems : List Value → List String
  | [] => []
  | v :: rest => v.render :: renderItems rest

def renderEntries : List (String × Value) → List String
  | [] => []
  | (k, v) :: rest => (renderText k ++ " = " ++ v.render) :: renderEntries rest

end

end ChainAnchor.Toml
