import ChainAnchor.Proofs.Codec.Wire

namespace ChainAnchor

namespace Packed

inductive Form
  | byte
  | word (w : IntWidth)

namespace Form

def marker : IntWidth → UInt8
  | .w16 => 251
  | .w32 => 252
  | .w64 => 253
  | .w128 => 254

def room : Form → Nat
  | byte => 251
  | word w => w.values

def least : Form → Nat
  | byte => 0
  | word .w16 => 251
  | word .w32 => IntWidth.w16.values
  | word .w64 => IntWidth.w32.values
  | word .w128 => IntWidth.w64.values

def size : Form → Nat
  | byte => 1
  | word w => w.size + 1

def write : Form → Nat → Bytes
  | byte, n => [UInt8.ofNat n]
  | word w, n => marker w :: Bytes.ofNatLE w.size n

@[simp] theorem length_write (f : Form) (n : Nat) : (f.write n).length = f.size := by
  cases f <;> simp [write, size]

theorem size_le_of_least_lt {f g : Form} (h : f.least < g.room) : f.size ≤ g.size := by
  revert h
  rcases f with _ | (_ | _ | _ | _) <;> rcases g with _ | (_ | _ | _ | _) <;> decide

end Form

/-- A form that has room for a number, and than which no other such form is shorter. -/
def IsShortest (n : Nat) (b : Bytes) : Prop :=
  ∃ f : Form, n < f.room ∧ b = f.write n ∧ ∀ g : Form, n < g.room → b.length ≤ (g.write n).length

variable {n k : Nat} {i : Int} {w : IntWidth} {signed : Bool} {b : Bytes} {r : Reader}

theorem isShortest_write {f : Form} (hf : f.least ≤ n) (hn : n < f.room) :
    IsShortest n (f.write n) := by
  refine ⟨f, hn, rfl, ?_⟩
  intro g hg
  rw [Form.length_write, Form.length_write]
  exact Form.size_le_of_least_lt (Nat.lt_of_le_of_lt hf hg)

theorem isShortest_encode (hn : n < IntWidth.w64.values) : IsShortest n (encode n) := by
  rw [encode]
  split
  next h => exact isShortest_write (f := .byte) n.zero_le h
  next h₁ =>
    split
    next h₂ => exact isShortest_write (f := .word .w16) (Nat.le_of_not_lt h₁) h₂
    next h₂ =>
      split
      next h₃ => exact isShortest_write (f := .word .w32) (Nat.le_of_not_lt h₂) h₃
      next h₃ => exact isShortest_write (f := .word .w64) (Nat.le_of_not_lt h₃) hn

theorem marker_of_width? {x : UInt8} (hx : width? x = some w) : x = Form.marker w := by
  rw [width?] at hx
  split_ifs at hx <;> cases hx <;> assumption

theorem values_le_of_size_le {v : IntWidth} (h : v.size ≤ w.size) : v.values ≤ w.values := by
  rw [v.values_eq, w.values_eq]
  exact Nat.pow_le_pow_right (by decide) h

theorem exists_form_of_decode (hd : decode signed w ⟨b, k⟩ = .ok (n, r)) :
    n < w.values ∧ ∃ f : Form, n < f.room ∧ b = f.write n ++ r.rest := by
  obtain ⟨x, r₁, hx, hd⟩ := Decoder.andThen_eq_ok hd
  cases b with
  | nil => cases hx
  | cons x b =>
    cases hx
    dsimp only at hd
    split at hd
    next hlt =>
      cases hd
      have hn : x.toNat < 251 := UInt8.lt_iff_toNat_lt.mp hlt
      have hw : 251 ≤ w.values := by cases w <;> decide
      exact ⟨by omega, .byte, hn, by simp [Form.write]⟩
    next =>
      cases hfound : width? x with
      | none =>
        rw [hfound] at hd
        cases hd
      | some found =>
        rw [hfound] at hd
        dsimp only at hd
        split at hd
        next hle =>
          obtain ⟨taken, ht, rfl⟩ := Decoder.map_eq_ok hd
          obtain ⟨hl, hb⟩ := Reader.take_eq_ok ht
          have hn : taken.toNatLE < found.values := by
            rw [found.values_eq, ← hl]
            exact taken.toNatLE_lt
          refine ⟨Nat.lt_of_lt_of_le hn (values_le_of_size_le hle), .word found, hn, ?_⟩
          rw [Form.write, ← hl, taken.ofNatLE_toNatLE, ← marker_of_width? hfound, hb]
          rfl
        next => cases hd

theorem unfold_fold (i : Int) : unfold (fold i) = i := by
  rw [unfold, fold]
  split <;> split <;> omega

theorem fold_unfold (n : Nat) : fold (unfold n) = n := by
  rw [unfold, fold]
  split <;> split <;> omega

theorem fold_lt_iff : fold i < w.values ↔ Codec.IsSigned w i := by
  have heven : 2 ∣ w.values := by cases w <;> decide
  rw [fold, Codec.IsSigned]
  split <;> omega

end Packed

end ChainAnchor
