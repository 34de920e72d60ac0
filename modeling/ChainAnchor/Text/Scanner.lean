namespace ChainAnchor

def Scanner (α : Type) := List Char → Option (α × List Char)

namespace Scanner

variable {α β : Type}

instance : Monad Scanner where
  pure a := fun s ↦ some (a, s)
  bind p f := fun s ↦ match p s with
    | none => none
    | some (a, rest) => f a rest

def fail : Scanner α := fun _ ↦ none

/-- Tries the second scanner where the first one fails. -/
def or (p q : Scanner α) : Scanner α := fun s ↦ match p s with
  | none => q s
  | some r => some r

def first (l : List (Scanner α)) : Scanner α := l.foldr or fail

def get (o : Option α) : Scanner α := fun s ↦ o.map fun a ↦ (a, s)

def when (b : Bool) (p : Scanner α) : Scanner α := if b then p else fail

def satisfy (f : Char → Bool) : Scanner Char
  | c :: rest => if f c then some (c, rest) else none
  | [] => none

def char (c : Char) : Scanner Unit := do
  let _ ← satisfy (· == c)
  return ()

def word (w : String) : Scanner Unit := w.toList.forM char

def span (f : Char → Bool) : Scanner (List Char) := fun s ↦ some (s.takeWhile f, s.dropWhile f)

def span1 (f : Char → Bool) : Scanner (List Char) := do
  let c ← satisfy f
  let l ← span f
  return c :: l

def optional (p : Scanner α) : Scanner (Option α) := fun s ↦ match p s with
  | none => some (none, s)
  | some (a, rest) => some (some a, rest)

def times (p : Scanner α) : Nat → Scanner (List α)
  | 0 => pure []
  | n + 1 => do
    let a ← p
    let l ← times p n
    return a :: l

def repeatFor (p : Scanner α) : Nat → Scanner (List α)
  | 0 => pure []
  | n + 1 => fun s ↦ match p s with
    | none => some ([], s)
    | some (a, rest) => match repeatFor p n rest with
      | none => none
      | some (l, rest) => some (a :: l, rest)

/-- As often as possible; each repetition takes a character or more, so the length of the text
bounds their number. -/
def many (p : Scanner α) : Scanner (List α) := fun s ↦ repeatFor p s.length s

/-- One or more, with something between them. -/
def separated (p : Scanner α) (between : Scanner Unit) : Scanner (List α) := do
  let a ← p
  let l ← many do
    between
    p
  return a :: l

def finished : Scanner Unit
  | [] => some ((), [])
  | _ => none

end Scanner

end ChainAnchor
