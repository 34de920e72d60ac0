import ChainAnchor.Bytes.Digest

namespace ChainAnchor

namespace Sha2

/-- What distinguishes the members of the family. -/
structure Variant (W : Type) where
  wordBytes : Nat
  ofNat : Nat → W
  toNat : W → Nat
  sum0 : W → W
  sum1 : W → W
  spread0 : W → W
  spread1 : W → W
  constants : List W
  initial : List W

variable {W : Type} [Add W] [XorOp W] [AndOp W] [Complement W] [OfNat W 0]

/-- The eight words carried from block to block. -/
structure State (W : Type) where
  a : W
  b : W
  c : W
  d : W
  e : W
  f : W
  g : W
  h : W

def State.ofList (l : List W) : State W :=
  ⟨l.getD 0 0, l.getD 1 0, l.getD 2 0, l.getD 3 0, l.getD 4 0, l.getD 5 0, l.getD 6 0, l.getD 7 0⟩

def State.toList (s : State W) : List W := [s.a, s.b, s.c, s.d, s.e, s.f, s.g, s.h]

@[specialize] def State.add (s t : State W) : State W :=
  ⟨s.a + t.a, s.b + t.b, s.c + t.c, s.d + t.d, s.e + t.e, s.f + t.f, s.g + t.g, s.h + t.h⟩

/-- Adds words to a schedule that is listed from its newest word on. -/
@[specialize] def extend (v : Variant W) : Nat → List W → List W
  | 0, w => w
  | k + 1, w =>
    extend v k ((v.spread1 (w.getD 1 0) + w.getD 6 0 + v.spread0 (w.getD 14 0) + w.getD 15 0) :: w)

@[specialize] def round (v : Variant W) (s : State W) (kw : W × W) : State W :=
  let choice := (s.e &&& s.f) ^^^ (~~~s.e &&& s.g)
  let majority := (s.a &&& s.b) ^^^ (s.a &&& s.c) ^^^ (s.b &&& s.c)
  let t := s.h + v.sum1 s.e + choice + kw.1 + kw.2
  ⟨t + (v.sum0 s.a + majority), s.a, s.b, s.c, s.d + t, s.e, s.f, s.g⟩

@[specialize] def compress (v : Variant W) (s : State W) (block : List W) : State W :=
  let schedule := (extend v (v.constants.length - 16) block.reverse).reverse
  s.add ((v.constants.zip schedule).foldl (round v) s)

/-- The message with its closing bit, zeros and length, which fill whole blocks. -/
def pad (v : Variant W) (message : Bytes) : Bytes :=
  let block := 16 * v.wordBytes
  let tail := 1 + 2 * v.wordBytes
  let zeros := (block - (message.length + tail) % block) % block
  message ++ 0x80 ::
    (List.replicate zeros 0 ++ Bytes.ofNatBE (2 * v.wordBytes) (8 * message.length))

def words (v : Variant W) : Nat → Bytes → List W
  | 0, _ => []
  | k + 1, b => v.ofNat (Bytes.toNatBE (b.take v.wordBytes)) :: words v k (b.drop v.wordBytes)

@[specialize] def blocks (v : Variant W) : Nat → Bytes → State W → State W
  | 0, _, s => s
  | k + 1, b, s => blocks v k (b.drop (16 * v.wordBytes)) (compress v s (words v 16 b))

@[specialize] def hash (v : Variant W) (message : Bytes) : Bytes :=
  let padded := pad v message
  let s := blocks v (padded.length / (16 * v.wordBytes)) padded (State.ofList v.initial)
  s.toList.flatMap fun w ↦ Bytes.ofNatBE v.wordBytes (v.toNat w)

omit [Add W] [XorOp W] [AndOp W] [Complement W] [OfNat W 0] in
theorem length_flatMap_toList (s : State W) (k : Nat) (f : W → Nat) :
    (s.toList.flatMap fun w ↦ Bytes.ofNatBE k (f w)).length = 8 * k := by
  simp [State.toList]; omega

theorem length_hash (v : Variant W) (message : Bytes) : (hash v message).length = 8 * v.wordBytes :=
  length_flatMap_toList ..

end Sha2

end ChainAnchor
