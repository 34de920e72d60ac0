import ChainAnchor.Proofs.Curve.Jacobian
import ChainAnchor.Ecdsa.Nonce
import Mathlib.Logic.Function.Iterate

namespace ChainAnchor

open Curve

namespace Nonce

variable {secret z : Scalar} {s : State} {sig : Signature} {i k : Nat}

def State.candidate? (s : State) : Option Scalar :=
  scalar? (Hmac.sha256 s.key.bytes s.value.bytes)

def State.next (s : State) : State := State.mix ⟨s.key, Hmac.sha256 s.key.bytes s.value.bytes⟩ [0]

def MakesAt (secret z : Scalar) (s : State) (i : Nat) (sig : Signature) : Prop :=
  ∃ nonce, (State.next^[i] s).candidate? = some nonce ∧ Signature.make? secret z nonce = some sig

theorem makesAt_zero : MakesAt secret z s 0 sig ↔
    s.candidate?.bind (Signature.make? secret z) = some sig := by
  rw [Option.bind_eq_some_iff]
  rfl

theorem search_succ (secret z : Scalar) (k : Nat) (s : State) :
    search secret z (k + 1) s =
      (s.candidate?.bind (Signature.make? secret z)).or (search secret z k s.next) := by
  rw [search, State.candidate?, State.next]
  cases (scalar? _).bind _ <;> rfl

/-- What the search finds was made by a candidate. -/
theorem exists_makesAt_of_search (h : search secret z k s = some sig) :
    ∃ i, i < k ∧ MakesAt secret z s i sig := by
  induction k generalizing s with
  | zero => cases h
  | succ k ih =>
    rw [search_succ, Option.or_eq_some_iff] at h
    rcases h with h | ⟨-, h⟩
    · exact ⟨0, Nat.zero_lt_succ k, makesAt_zero.mpr h⟩
    · obtain ⟨i, hi, hm⟩ := ih h
      exact ⟨i + 1, Nat.succ_lt_succ hi, hm⟩

/-- The search does not pass by a candidate that makes a signature. -/
theorem exists_search (hi : i < k) (hm : MakesAt secret z s i sig) :
    ∃ found, search secret z k s = some found := by
  induction k generalizing s i with
  | zero => omega
  | succ k ih =>
    rw [search_succ]
    cases hc : s.candidate?.bind (Signature.make? secret z) with
    | some found => exact ⟨found, rfl⟩
    | none =>
      cases i with
      | zero =>
        rw [makesAt_zero, hc] at hm
        cases hm
      | succ i => exact ih (Nat.lt_of_succ_lt_succ hi) hm

end Nonce

namespace Signature

variable {secret : Digest 32} {h : Hash}

/-- One of the candidates that are tried makes a signature, so the search for a nonce ends. -/
def Signable (secret : Digest 32) (h : Hash) : Prop :=
  ∃ i sig, i < Nonce.attempts ∧
    Nonce.MakesAt (scalarOf secret) (scalarOf h) (Nonce.start secret (scalarOf h)) i sig

theorem signable_iff : Signable secret h ↔ ∃ sig, sign? secret h = some sig := by
  constructor
  · rintro ⟨i, sig, hi, hm⟩
    exact Nonce.exists_search hi hm
  · rintro ⟨sig, hs⟩
    obtain ⟨i, hi, hm⟩ := Nonce.exists_makesAt_of_search hs
    exact ⟨i, sig, hi, hm⟩

theorem exists_make?_of_sign? {sig : Signature} (hs : sign? secret h = some sig) :
    ∃ nonce, make? (scalarOf secret) (scalarOf h) nonce = some sig := by
  obtain ⟨i, -, nonce, -, hm⟩ := Nonce.exists_makesAt_of_search hs
  exact ⟨nonce, hm⟩

def makes (secret z nonce : Scalar) : Bool :=
  match Jacobian.multiple? nonce.val Point.generator with
  | some (.affine x _) =>
    let r := Fin.ofNat order x.val
    !(r = 0 ∨ invert nonce * (z + r * secret) = 0)
  | _ => false

theorem exists_make?_of_makes {secret z nonce : Scalar} (hm : makes secret z nonce = true) :
    ∃ sig, make? secret z nonce = some sig := by
  rw [makes] at hm
  split at hm
  next x y hp =>
    rw [make?, Jacobian.multiply_of_multiple? hp]
    simp only [Bool.not_eq_true', decide_eq_false_iff_not] at hm
    exact ⟨_, if_neg hm⟩
  next => cases hm

theorem signable_of_makes
    (hm : (Nonce.start secret (scalarOf h)).candidate?.any
      (makes (scalarOf secret) (scalarOf h)) = true) : Signable secret h := by
  obtain ⟨nonce, hc, hm⟩ := (Option.any_eq_true _ _).mp hm
  obtain ⟨sig, hm⟩ := exists_make?_of_makes hm
  exact ⟨0, sig, by decide, nonce, hc, hm⟩

theorem signable_one : Signable (Digest.ofNatBE 1) Digest.zero :=
  signable_of_makes (by decide +kernel)

end Signature

end ChainAnchor
