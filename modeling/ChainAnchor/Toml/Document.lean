import ChainAnchor.Toml.Reserved

namespace ChainAnchor.Toml

open Scanner

def depthLimit : Nat := 80

def bareKey : Scanner (List Char) := span1 fun c ↦ c.isAlphanum || c == '_' || c == '-'

def simpleKey : Scanner String := do
  spaces
  let l ← first [basicString, literalString, bareKey]
  spaces
  return String.ofList l

def key : Scanner (List String) := do
  let path ← separated simpleKey (char '.')
  when (path.length < depthLimit) (pure path)

def gap : Scanner Unit := do
  let _ ← many (first [do let _ ← satisfy isSpace, newline, comment])
  return ()

def items (element : Scanner Value) : Scanner Value := do
  char '['
  gap
  let element := do
    let v ← element
    gap
    return v
  let l ← optional do
    let l ← separated element (do char ','; gap)
    let _ ← optional do
      char ','
      gap
    return l
  char ']'
  return .list false (l.getD [])

/-- What a table holds, with how it was made. -/
abbrev Table := TableKind × Entries

/-- Changes the table at the end of a path, with new tables where there are none.  Of tables under
headers of one name the last one is meant. -/
def alterAt (made : TableKind) (enters : TableKind → Bool) :
    List String → (Table → Option Table) → Table → Option Table
  | [], change, t => change t
  | k :: path, change, (kind, entries) =>
    match entries.lookup k with
    | none => (alterAt made enters path change (made, [])).map fun t ↦
      (kind, entries.put k (.table t.1 t.2))
    | some (.table kind' entries') =>
      if enters kind' then
        (alterAt made enters path change (kind', entries')).map fun t ↦
          (kind, entries.put k (.table t.1 t.2))
      else none
    | some (.list true l) => match l.getLast? with
      | some (.table kind' entries') =>
        (alterAt made enters path change (kind', entries')).map fun t ↦
          (kind, entries.put k (.list true (l.dropLast ++ [.table t.1 t.2])))
      | _ => none
    | some _ => none

/-- A header passes through all tables but those that are values. -/
def throughHeaders (path : List String) (change : Table → Option Table) (t : Table) :
    Option Table :=
  alterAt .implied (· != .closed) path change t

/-- Assigns a value to a dotted key, which must not lead into a table made in another way. -/
def assign (path : List String) (v : Value) (t : Table) : Option Table :=
  match path.getLast? with
  | none => none
  | some k =>
    let above := path.dropLast
    let put (t : Table) : Option Table :=
      if (t.1 == .dotted) == above.isEmpty || (t.2.lookup k).isSome then none
      else some (t.1, t.2 ++ [(k, v)])
    alterAt .dotted (fun kind ↦ kind = .implied || kind = .dotted) above put t

def inlineTable (element : Scanner Value) : Scanner Value := do
  let pair : Scanner (List String × Value) := do
    let k ← key
    char '='
    spaces
    let v ← element
    spaces
    return (k, v)
  char '\x7b'
  spaces
  let l ← optional (separated pair (char ','))
  char '\x7d'
  let t ← get ((l.getD []).foldlM (fun t p ↦ assign p.1 p.2 t) ((.headed, []) : Table))
  return .table .closed t.2

/-- A value inside so many others at most. -/
def value : Nat → Scanner Value
  | 0 => scalar
  | depth + 1 => first [scalar, items (value depth), inlineTable (value depth)]

inductive Line
  | blank
  | assignment (path : List String) (v : Value)
  | header (path : List String)
  | listHeader (path : List String)

def lineContent : Scanner Line := fun s ↦ match s with
  | '[' :: '[' :: _ => (do word "[["; let k ← key; word "]]"; return .listHeader k : Scanner Line) s
  | '[' :: _ => (do char '['; let k ← key; char ']'; return .header k : Scanner Line) s
  | '#' :: _ | '\n' :: _ | '\r' :: _ | [] => some (.blank, s)
  | _ => (do
      let k ← key
      char '='
      spaces
      let v ← value (depthLimit - 1)
      return .assignment k v : Scanner Line) s

def line : Scanner Line := do
  spaces
  let l ← lineContent
  spaces
  let _ ← optional comment
  or newline finished
  return l

/-- All lines of a text; each of them takes a character or ends the text. -/
def linesOf : Nat → List Char → Option (List Line)
  | 0, _ => some []
  | n + 1, s => match line s with
    | none => none
    | some (l, []) => some [l]
    | some (l, rest) => (linesOf n rest).map (l :: ·)

/-- Opens a table, which must not have been defined before.  One that was only implied so far moves
behind the tables opened since. -/
def openTable (path : List String) (t : Table) : Option Table :=
  match path.getLast? with
  | none => none
  | some k => throughHeaders path.dropLast
    (fun t ↦ match t.2.lookup k with
      | none => some (t.1, t.2.put k (.table .headed []))
      | some (.table .implied entries) => some (t.1, (t.2.remove k).put k (.table .headed entries))
      | some _ => none) t

def openListed (path : List String) (t : Table) : Option Table :=
  match path.getLast? with
  | none => none
  | some k => throughHeaders path.dropLast
    (fun t ↦ match t.2.lookup k with
      | none => some (t.1, t.2.put k (.list true [.table .headed []]))
      | some (.list true l) => some (t.1, t.2.put k (.list true (l ++ [.table .headed []])))
      | some _ => none) t

/-- The whole table so far, and the path of the header in force. -/
def addLine (s : Table × List String) : Line → Option (Table × List String)
  | .blank => some s
  | .assignment path v => (throughHeaders s.2 (assign path v) s.1).map fun t ↦ (t, s.2)
  | .header path => (openTable path s.1).map fun t ↦ (t, path)
  | .listHeader path => (openListed path s.1).map fun t ↦ (t, path)

/-- A mark that may stand at the beginning of a text and is no part of it. -/
def dropMark : List Char → List Char
  | c :: rest => if c.toNat = 0xFEFF then rest else c :: rest
  | [] => []

/-- Reads a file, which must not stand for a date as a whole. -/
def parse? (text : String) : Option Entries :=
  let s := dropMark (dropMark text.toList)
  match linesOf (s.length + 1) s with
  | none => none
  | some lines => match lines.foldlM addLine ((.headed, []), []) with
    | none => none
    | some ((_, entries), _) =>
      if (dateOf? entries).isSome then none else entriesWithDates? entries

end ChainAnchor.Toml
