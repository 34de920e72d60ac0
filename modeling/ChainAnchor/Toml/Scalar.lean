import ChainAnchor.Text.Scanner
import ChainAnchor.Toml.Value

namespace ChainAnchor.Toml

open Scanner

def isSpace (c : Char) : Bool := c == ' ' || c == '\t'

def isBeyondAscii (c : Char) : Bool := 0x80 ≤ c.toNat

def isPrintable (c : Char) : Bool :=
  c == '\t' || (0x20 ≤ c.toNat && c.toNat ≤ 0x7E) || isBeyondAscii c

def spaces : Scanner Unit := do
  let _ ← span isSpace
  return ()

def newline : Scanner Unit := or (char '\n') (word "\r\n")

def comment : Scanner Unit := do
  char '#'
  let _ ← span isPrintable
  return ()

def isHexDigit (c : Char) : Bool := c.isDigit || ('a' ≤ c && c ≤ 'f') || ('A' ≤ c && c ≤ 'F')

def digitValue (c : Char) : Nat :=
  if c.isDigit then c.toNat - 48 else c.toLower.toNat - 87

def ofDigits (base : Nat) (l : List Char) : Nat := l.foldl (fun n c ↦ base * n + digitValue c) 0

-- Strings

/-- A character by its number, which must not be a surrogate. -/
def codePoint (width : Nat) : Scanner Char := do
  let n := ofDigits 16 (← times (satisfy isHexDigit) width)
  if n.isValidChar then return Char.ofNat n else fail

def escaped : Scanner Char := do
  char '\\'
  match ← satisfy fun _ ↦ true with
  | 'b' => return Char.ofNat 8
  | 't' => return '\t'
  | 'n' => return '\n'
  | 'f' => return Char.ofNat 12
  | 'r' => return '\r'
  | '"' => return '"'
  | '\\' => return '\\'
  | 'u' => codePoint 4
  | 'U' => codePoint 8
  | _ => fail

def basicString : Scanner (List Char) := do
  char '"'
  let l ← many (or (satisfy fun c ↦ isPrintable c && c != '"' && c != '\\') escaped)
  char '"'
  return l

def literalString : Scanner (List Char) := do
  char '\''
  let l ← span fun c ↦ isPrintable c && c != '\''
  char '\''
  return l

/-- A quotation mark that is not one of three in a row. -/
def loneQuote (q : Char) : Scanner (List Char) := fun
  | a :: b :: c :: rest =>
    if a == q && !(b == q && c == q) then some ([q], b :: c :: rest) else none
  | a :: rest => if a == q then some ([q], rest) else none
  | [] => none

/-- The end of a text over several lines: three marks, and before them up to two that belong to it.
-/
def closing (q : Char) : Scanner (List Char) := do
  let three := times (char q) 3
  let _ ← three
  let extra ← optional (char q)
  let more ← optional (char q)
  return List.replicate (extra.toList.length + more.toList.length) q

/-- A backslash at the end of a line joins it to the next text. -/
def joined : Scanner (List Char) := do
  char '\\'
  spaces
  newline
  let _ ← many (or (do let _ ← satisfy isSpace) newline)
  return []

def lineEnd : Scanner (List Char) := do
  newline
  return ['\n']

def one (p : Scanner Char) : Scanner (List Char) := do
  let c ← p
  return [c]

def longText (q : Char) (piece : Scanner (List Char)) : Scanner (List Char) := do
  let _ ← times (char q) 3
  let _ ← optional newline
  let l ← many (first [piece, lineEnd, loneQuote q])
  let final ← closing q
  return l.flatten ++ final

def longBasic : Scanner (List Char) :=
  longText '"' (first [one (satisfy fun c ↦ isPrintable c && c != '"' && c != '\\'), joined,
    one escaped])

def longLiteral : Scanner (List Char) :=
  longText '\'' (one (satisfy fun c ↦ isPrintable c && c != '\''))

def string : Scanner Value := do
  let l ← first [longBasic, longLiteral, basicString, literalString]
  return .text (String.ofList l)

-- Numbers

def sign : Scanner (Option Char) := optional (satisfy fun c ↦ c == '+' || c == '-')

def digits (f : Char → Bool) : Scanner (List Char) := do
  let c ← satisfy f
  let l ← many do
    let _ ← optional (char '_')
    satisfy f
  return c :: l

def plainDigits : Scanner (List Char) := or
  (do
    let c ← satisfy fun c ↦ '1' ≤ c && c ≤ '9'
    let l ← many do
      let _ ← optional (char '_')
      satisfy Char.isDigit
    return c :: l)
  (one (satisfy (· == '0')))

/-- Whole numbers have to fit into 64 bits. -/
def whole (i : Int) : Scanner Value :=
  when (-0x8000000000000000 ≤ i && i < 0x8000000000000000) (pure (.integer i))

def based (mark : String) (base : Nat) (f : Char → Bool) : Scanner Value := do
  word mark
  whole (ofDigits base (← digits f))

def integer : Scanner Value := first [
  based "0x" 16 isHexDigit,
  based "0o" 8 fun c ↦ '0' ≤ c && c ≤ '7',
  based "0b" 2 fun c ↦ c == '0' || c == '1',
  do
    let s ← sign
    let n := ofDigits 10 (← plainDigits)
    whole (if s = some '-' then -(n : Int) else n)]

def exponent : Scanner Int := do
  let _ ← satisfy fun c ↦ c == 'e' || c == 'E'
  let s ← sign
  let n := ofDigits 10 (← digits Char.isDigit)
  return if s = some '-' then -(n : Int) else n

def fraction : Scanner (List Char) := do
  char '.'
  digits Char.isDigit

/-- A number with a fraction or an exponent; one that is too large to be finite is refused. -/
def decimal : Scanner Value := do
  let s ← sign
  let before ← plainDigits
  let (after, e) ← or
    (do
      let after ← fraction
      let e ← optional exponent
      return (after, e.getD 0))
    (do
      let e ← exponent
      return ([], e))
  let x := Binary64.ofDecimal (s = some '-') (ofDigits 10 (before ++ after)) (e - after.length)
  when (x != .infinite false) (pure (.float x))

def special : Scanner Value := do
  let s ← sign
  or (do word "inf"; return .float (.infinite (s = some '-'))) (do word "nan"; return .float .nan)

def boolean : Scanner Value :=
  or (do word "true"; return .boolean true) (do word "false"; return .boolean false)

-- Dates

/-- A number of a certain width within bounds. -/
def bounded (width least most : Nat) : Scanner Nat := do
  let n := ofDigits 10 (← times (satisfy Char.isDigit) width)
  when (least ≤ n && n ≤ most) (pure n)

def padded (width n : Nat) : String :=
  let l := Nat.toDigits 10 n
  String.ofList (List.replicate (width - l.length) '0' ++ l)

def isLeap (year : Nat) : Bool := year % 4 = 0 && (year % 100 != 0 || year % 400 = 0)

def daysOf (year month : Nat) : Nat :=
  if month = 2 then (if isLeap year then 29 else 28)
  else if month = 4 || month = 6 || month = 9 || month = 11 then 30
  else 31

def date : Scanner String := do
  let year ← bounded 4 0 9999
  char '-'
  let month ← bounded 2 1 12
  char '-'
  let day ← bounded 2 1 (daysOf year month)
  return padded 4 year ++ "-" ++ padded 2 month ++ "-" ++ padded 2 day

/-- A time of day, to nine places of a second. -/
def time : Scanner String := do
  let hour ← bounded 2 0 23
  char ':'
  let minute ← bounded 2 0 59
  char ':'
  let second ← bounded 2 0 60
  let places ← optional do
    char '.'
    span1 Char.isDigit
  let places := (((places.getD []).take 9).reverse.dropWhile (· == '0')).reverse
  let rest := if places.isEmpty then "" else "." ++ String.ofList places
  return padded 2 hour ++ ":" ++ padded 2 minute ++ ":" ++ padded 2 second ++ rest

/-- By how much the time of a place is off. -/
def zone : Scanner String := or
  (do
    let _ ← satisfy fun c ↦ c == 'Z' || c == 'z'
    return "Z")
  (do
    let s ← satisfy fun c ↦ c == '+' || c == '-'
    let hour ← bounded 2 0 23
    char ':'
    let minute ← bounded 2 0 59
    let s := if hour = 0 && minute = 0 then '+' else s
    return s.toString ++ padded 2 hour ++ ":" ++ padded 2 minute)

/-- A date, a time, or a date and a time, of which only the last can name a zone. -/
def moment : Scanner String := or
  (do
    let d ← date
    let t ← optional do
      let _ ← satisfy fun c ↦ c == 'T' || c == 't' || c == ' '
      let t ← time
      let z ← optional zone
      return "T" ++ t ++ z.getD ""
    return d ++ t.getD "")
  time

def momentValue : Scanner Value := do
  let s ← moment
  return .moment s

def scalar : Scanner Value := first [string, boolean, special, momentValue, decimal, integer]

end ChainAnchor.Toml
