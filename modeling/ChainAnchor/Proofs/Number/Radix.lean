import ChainAnchor.Number.Radix
import ChainAnchor.Proofs.Bytes.Hex
import Mathlib.Data.List.Forall2

namespace ChainAnchor

namespace Text

theorem trimStart_append {l s : List Char} (hl : ∀ c ∈ l, isBlank c = true) :
    trimStart (l ++ s) = trimStart s := List.dropWhile_append_of_pos hl

theorem trimStart_of_head {s : List Char} (hs : ∀ c, s.head? = some c → isBlank c = false) :
    trimStart s = s := by
  cases s with
  | nil => rfl
  | cons c s => exact List.dropWhile_cons_of_neg (by rw [hs c rfl]; exact Bool.false_ne_true)

theorem isBlank_eq_false_of_value? {c : Char} {k : Nat} (h : Hex.value? c = some k) :
    isBlank c = false := by
  rw [Hex.value?_eq] at h
  have hrange : (48 ≤ c.toNat ∧ c.toNat ≤ 57) ∨ (97 ≤ c.toNat ∧ c.toNat ≤ 102) ∨
      (65 ≤ c.toNat ∧ c.toNat ≤ 70) := by grind
  simp only [isBlank, Bool.or_eq_false_iff, Bool.and_eq_false_iff, decide_eq_false_iff_not,
    beq_eq_false_iff_ne]
  omega

end Text

namespace Radix

variable {a : Int} {n radix : Nat} {l run run' s tail : List Char} {negative : Bool}

def ofDigits (radix : Nat) (l : List Char) : Nat :=
  l.foldl (fun n c ↦ radix * n + (Hex.value? c).getD 0) 0

structure IsNumeral (radix n : Nat) (l : List Char) : Prop where
  isDigit : ∀ c ∈ l, ∃ k < radix, c = Hex.digit k
  ofDigits_eq : ofDigits radix l = n
  ne_nil : l ≠ []
  eq_zero_of_head : l.head? = some '0' → l = ['0']

theorem ofDigits_digitsOnto (hr : radix ≤ 16) (hr₂ : 2 ≤ radix) (n : Nat) (tail : List Char) :
    ofDigits radix (digitsOnto radix n tail) =
      tail.foldl (fun n c ↦ radix * n + (Hex.value? c).getD 0) n := by
  fun_induction digitsOnto radix n tail with
  | case1 n tail h =>
    obtain rfl : n = 0 := by omega
    rfl
  | case2 n tail h ih =>
    have hmod := Nat.mod_lt n (by omega : radix > 0)
    rw [ih, List.foldl_cons, Hex.value?_digit _ (by omega), Option.getD_some, Nat.div_add_mod]

theorem mem_digitsOnto (hr₂ : 2 ≤ radix) (n : Nat) (tail : List Char) :
    ∀ c ∈ digitsOnto radix n tail, c ∈ tail ∨ ∃ k < radix, c = Hex.digit k := by
  fun_induction digitsOnto radix n tail with
  | case1 n tail h => exact fun c hc ↦ .inl hc
  | case2 n tail h ih =>
    intro c hc
    rcases ih c hc with hc | hc
    · rcases List.mem_cons.mp hc with rfl | hc
      · exact .inr ⟨n % radix, Nat.mod_lt n (by omega), rfl⟩
      · exact .inl hc
    · exact .inr hc

theorem head?_digitsOnto (hr₂ : 2 ≤ radix) (hn : n ≠ 0) (tail : List Char) :
    ∃ k, 0 < k ∧ k < radix ∧ (digitsOnto radix n tail).head? = some (Hex.digit k) := by
  fun_induction digitsOnto radix n tail with
  | case1 n tail h => omega
  | case2 n tail h ih =>
    have hmod := Nat.mod_lt n (by omega : radix > 0)
    by_cases hq : n / radix = 0
    · have hlt : n < radix := (Nat.div_eq_zero_iff_lt (by omega)).mp hq
      rw [hq, digitsOnto, dif_pos (.inl rfl), Nat.mod_eq_of_lt hlt]
      exact ⟨n, by omega, hlt, rfl⟩
    · exact ih hq

theorem isNumeral_digits (hr : radix ≤ 16) (hr₂ : 2 ≤ radix) (n : Nat) :
    IsNumeral radix n (digits radix n) := by
  rw [digits]
  split
  next hn =>
    subst hn
    refine ⟨fun c hc ↦ ⟨0, by omega, List.mem_singleton.mp hc⟩, ?_, List.cons_ne_nil _ _,
      fun _ ↦ rfl⟩
    rfl
  next hn =>
    obtain ⟨k, hk, hkr, hhead⟩ := head?_digitsOnto hr₂ hn []
    refine ⟨fun c hc ↦ ?_, ofDigits_digitsOnto hr hr₂ n [], fun h ↦ ?_, fun h ↦ ?_⟩
    · exact (mem_digitsOnto hr₂ n [] c hc).resolve_left List.not_mem_nil
    · rw [h] at hhead
      cases hhead
    · rw [hhead] at h
      have hzero := (Hex.digit_eq_zero_iff k (by omega)).mp (Option.some.inj h)
      omega

theorem isNumeral_hex (n : Nat) : IsNumeral 16 n (digits 16 n) :=
  isNumeral_digits (Nat.le_refl 16) (by decide) n

def IsRun (n : Nat) (run : List Char) : Prop :=
  ∃ zeros l, run = List.replicate zeros '0' ++ l ∧ l.map Char.toLower = digits 16 n

/-- The same run with characters that are neither blanks nor digits in place of some zeros. -/
def Garbled (run run' : List Char) : Prop :=
  List.Forall₂ (fun c c' ↦
    c' = c ∨ (c = '0' ∧ Text.isBlank c' = false ∧ Hex.value? c' = none)) run run'

structure IsUnbroken (run : List Char) : Prop where
  ne_nil : run ≠ []
  isBlank_eq_false : ∀ c ∈ run, Text.isBlank c = false

theorem readDigits_eq (l : List Char) : readDigits l = ofDigits 16 l := rfl

theorem ofDigits_zeros (radix zeros : Nat) (l : List Char) :
    ofDigits radix (List.replicate zeros '0' ++ l) = ofDigits radix l := by
  induction zeros with
  | zero => rfl
  | succ zeros ih => exact ih

theorem ofDigits_map_toLower (radix : Nat) (l : List Char) :
    ofDigits radix (l.map Char.toLower) = ofDigits radix l := by
  rw [ofDigits, List.foldl_map]
  simp only [Hex.value?_toLower, ofDigits]

theorem IsRun.readDigits_eq (h : IsRun n run) : readDigits run = n := by
  obtain ⟨zeros, l, rfl, hl⟩ := h
  rw [Radix.readDigits_eq, ofDigits_zeros, ← ofDigits_map_toLower, hl]
  exact (isNumeral_hex n).ofDigits_eq

theorem IsRun.exists_value? (h : IsRun n run) : ∀ c ∈ run, ∃ k, Hex.value? c = some k := by
  obtain ⟨zeros, l, rfl, hl⟩ := h
  intro c hc
  rcases List.mem_append.mp hc with hc | hc
  · exact ⟨0, by rw [(List.mem_replicate.mp hc).2]; rfl⟩
  · have hmem : c.toLower ∈ digits 16 n := hl ▸ List.mem_map_of_mem hc
    obtain ⟨k, hk, heq⟩ := (isNumeral_hex n).isDigit _ hmem
    exact ⟨k, by rw [← Hex.value?_toLower, heq, Hex.value?_digit k hk]⟩

theorem IsRun.isUnbroken (h : IsRun n run) : IsUnbroken run := by
  refine ⟨?_, fun c hc ↦ ?_⟩
  · rintro rfl
    obtain ⟨zeros, l, hnil, hl⟩ := h
    rw [(List.append_eq_nil_iff.mp hnil.symm).2] at hl
    exact (isNumeral_hex n).ne_nil hl.symm
  · obtain ⟨k, hk⟩ := h.exists_value? c hc
    exact Text.isBlank_eq_false_of_value? hk

theorem isRun_digits (n : Nat) : IsRun n (digits 16 n) := by
  refine ⟨0, digits 16 n, rfl, ?_⟩
  refine (List.map_congr_left fun c hc ↦ ?_).trans (List.map_id _)
  obtain ⟨k, hk, rfl⟩ := (isNumeral_hex n).isDigit c hc
  exact Hex.toLower_digit k hk

theorem garbled_refl (run : List Char) : Garbled run run := by
  induction run with
  | nil => exact .nil
  | cons c run ih => exact .cons (.inl rfl) ih

theorem Garbled.readDigits_eq (h : Garbled run run') : readDigits run' = readDigits run := by
  suffices hfold : ∀ n, run'.foldl (fun n c ↦ 16 * n + (Hex.value? c).getD 0) n =
      run.foldl (fun n c ↦ 16 * n + (Hex.value? c).getD 0) n from hfold 0
  induction h with
  | nil => exact fun n ↦ rfl
  | @cons c c' run run' hc _ ih =>
    have hvalue : (Hex.value? c').getD 0 = (Hex.value? c).getD 0 := by
      rcases hc with rfl | ⟨rfl, -, hnone⟩
      · rfl
      · rw [hnone]
        rfl
    intro n
    rw [List.foldl_cons, List.foldl_cons, hvalue, ih]

theorem Garbled.isUnbroken (h : Garbled run run') (hrun : IsUnbroken run) : IsUnbroken run' := by
  refine ⟨?_, ?_⟩
  · rintro rfl
    cases h
    exact hrun.ne_nil rfl
  · have hblank := hrun.isBlank_eq_false
    clear hrun
    induction h with
    | nil => exact hblank
    | @cons c c' run run' hc _ ih =>
      obtain ⟨hfirst, hrest⟩ := List.forall_mem_cons.mp hblank
      refine List.forall_mem_cons.mpr ⟨?_, ih hrest⟩
      rcases hc with rfl | ⟨-, hc, -⟩
      · exact hfirst
      · exact hc

/-- What may stand around a run: blanks, and behind the sign a marker and more blanks; after the run
nothing, or whatever a blank begins. -/
structure Frame where
  lead : List Char
  marker : List Char
  gap : List Char
  tail : List Char
  lead_blank : ∀ c ∈ lead, Text.isBlank c = true
  marker_mem : marker ∈ [[], ['0', 'x'], ['0', 'X']]
  gap_blank : ∀ c ∈ gap, Text.isBlank c = true
  tail_blank : ∀ c, tail.head? = some c → Text.isBlank c = true

variable {f : Frame}

def Frame.text (f : Frame) (negative : Bool) (run : List Char) : List Char :=
  f.lead ++ ((if negative then ['-'] else []) ++ (f.marker ++ (f.gap ++ (run ++ f.tail))))

def IsMarked (s : List Char) : Prop := ['0', 'x'] <+: s ∨ ['0', 'X'] <+: s

/-- The run begins with no sign and no marker where one would be read. -/
def Frame.Separates (f : Frame) (negative : Bool) (run : List Char) : Prop :=
  f.marker = [] → (negative = false → run.head? ≠ some '-') ∧
    (negative = false ∨ f.gap = [] → ¬IsMarked run)

theorem dropSign_of_head (hs : s.head? ≠ some '-') : dropSign s = (false, s) := by
  unfold dropSign
  split
  · exact absurd rfl hs
  · rfl

theorem dropMarker_of_not_isMarked (hs : ¬IsMarked s) : dropMarker s = s := by
  unfold dropMarker
  split
  · exact absurd (.inl ⟨_, rfl⟩) hs
  · exact absurd (.inr ⟨_, rfl⟩) hs
  · rfl

theorem marker_of_append {c : Char} (hc : Text.isBlank c = false) (hrun : IsUnbroken run)
    (htail : ∀ c, tail.head? = some c → Text.isBlank c = true) (h : ['0', c] <+: run ++ tail) :
    ['0', c] <+: run := by
  match run with
  | [] => exact absurd rfl hrun.ne_nil
  | [d] =>
    obtain ⟨t, rfl⟩ := (List.cons_prefix_cons.mp h).2
    have hblank := htail c rfl
    rw [hc] at hblank
    cases hblank
  | d :: e :: rest =>
    obtain ⟨hd, hrest⟩ := List.cons_prefix_cons.mp h
    obtain ⟨he, -⟩ := List.cons_prefix_cons.mp hrest
    exact ⟨rest, by rw [hd, he]; rfl⟩

theorem not_isMarked_append (hrun : IsUnbroken run)
    (htail : ∀ c, tail.head? = some c → Text.isBlank c = true) (h : ¬IsMarked run) :
    ¬IsMarked (run ++ tail) := by
  rintro (hmarked | hmarked)
  · exact h (.inl (marker_of_append (by decide) hrun htail hmarked))
  · exact h (.inr (marker_of_append (by decide) hrun htail hmarked))

theorem not_isMarked_of_blank {c : Char} (hc : Text.isBlank c = true) (s : List Char) :
    ¬IsMarked (c :: s) := by
  have hzero : '0' ≠ c := by
    rintro rfl
    exact absurd hc (by decide)
  rintro (h | h) <;> exact hzero (List.cons_prefix_cons.mp h).1

theorem takeWhile_run (hrun : IsUnbroken run)
    (htail : ∀ c, tail.head? = some c → Text.isBlank c = true) :
    (run ++ tail).takeWhile (fun c ↦ !Text.isBlank c) = run := by
  rw [List.takeWhile_append_of_pos fun c hc ↦ by rw [hrun.isBlank_eq_false c hc]; rfl]
  cases tail with
  | nil => exact List.append_nil run
  | cons c tail =>
    rw [List.takeWhile_cons_of_neg (by rw [htail c rfl]; exact Bool.false_ne_true), List.append_nil]

theorem trimStart_run (hrun : IsUnbroken run) (tail : List Char) :
    Text.trimStart (run ++ tail) = run ++ tail := by
  refine Text.trimStart_of_head fun c hc ↦ hrun.isBlank_eq_false c ?_
  rw [List.head?_append_of_ne_nil _ hrun.ne_nil] at hc
  exact List.mem_of_head? hc

theorem trimStart_sign (s : List Char) : Text.trimStart ('-' :: s) = '-' :: s :=
  Text.trimStart_of_head fun c hc ↦ by
    cases hc
    decide

theorem Frame.trimStart_gap (f : Frame) (hrun : IsUnbroken run) :
    Text.trimStart (f.gap ++ (run ++ f.tail)) = run ++ f.tail := by
  rw [Text.trimStart_append f.gap_blank, trimStart_run hrun]

def Frame.Reaches (f : Frame) (negative : Bool) (run : List Char) : Prop :=
  ∃ s, dropSign (Text.trimStart (f.text negative run)) = (negative, s) ∧
    Text.trimStart (dropMarker s) = run ++ f.tail

theorem Frame.reaches_of_marker (hmarker : f.marker ≠ []) (hrun : IsUnbroken run)
    (negative : Bool) : f.Reaches negative run := by
  obtain ⟨c, hc, hdrop⟩ : ∃ c, f.marker = ['0', c] ∧ ∀ s, dropMarker ('0' :: c :: s) = s := by
    rcases List.mem_cons.mp f.marker_mem with h | h
    · exact absurd h hmarker
    · rcases List.mem_pair.mp h with h | h
      · exact ⟨'x', h, fun s ↦ rfl⟩
      · exact ⟨'X', h, fun s ↦ rfl⟩
  rw [Reaches, text, hc, Text.trimStart_append f.lead_blank]
  refine ⟨'0' :: c :: (f.gap ++ (run ++ f.tail)), ?_, ?_⟩
  · cases negative with
    | false => exact congrArg dropSign (Text.trimStart_of_head fun d hd ↦ by cases hd; decide)
    | true => exact congrArg dropSign (trimStart_sign _)
  · rw [hdrop, f.trimStart_gap hrun]

theorem Frame.reaches_of_unmarked (hmarker : f.marker = []) (hrun : IsUnbroken run)
    (hsep : f.Separates negative run) : f.Reaches negative run := by
  obtain ⟨hsign, hunmarked⟩ := hsep hmarker
  have hplain (h : negative = false ∨ f.gap = []) : ¬IsMarked (run ++ f.tail) :=
    not_isMarked_append hrun f.tail_blank (hunmarked h)
  rw [Reaches, text, hmarker, Text.trimStart_append f.lead_blank]
  cases negative with
  | false =>
    refine ⟨run ++ f.tail, ?_, ?_⟩
    · change dropSign (Text.trimStart (f.gap ++ (run ++ f.tail))) = _
      rw [f.trimStart_gap hrun, dropSign_of_head]
      rw [List.head?_append_of_ne_nil _ hrun.ne_nil]
      exact hsign rfl
    · rw [dropMarker_of_not_isMarked (hplain (.inl rfl)), trimStart_run hrun]
  | true =>
    refine ⟨f.gap ++ (run ++ f.tail), congrArg dropSign (trimStart_sign _), ?_⟩
    rw [dropMarker_of_not_isMarked, f.trimStart_gap hrun]
    cases hcons : f.gap with
    | nil => exact hplain (.inr hcons)
    | cons c gap => exact not_isMarked_of_blank (f.gap_blank c (hcons ▸ List.mem_cons_self)) _

theorem Frame.reaches (hrun : IsUnbroken run) (hsep : f.Separates negative run) :
    f.Reaches negative run := by
  by_cases hmarker : f.marker = []
  · exact reaches_of_unmarked hmarker hrun hsep
  · exact reaches_of_marker hmarker hrun negative

theorem Frame.ofHexChars_text (hrun : IsUnbroken run) (hsep : f.Separates negative run) :
    ofHexChars (f.text negative run) =
      if negative then -(readDigits run : Int) else readDigits run := by
  obtain ⟨s, hsign, hrest⟩ := reaches hrun hsep
  rw [ofHexChars, hsign]
  dsimp only
  rw [hrest, takeWhile_run hrun f.tail_blank]

theorem IsRun.separates (h : IsRun n run) (f : Frame) (negative : Bool) :
    f.Separates negative run := by
  have hdigit (c : Char) (hc : Hex.value? c = none) : c ∉ run := fun hmem ↦ by
    obtain ⟨k, hk⟩ := h.exists_value? c hmem
    rw [hc] at hk
    cases hk
  refine fun _ ↦ ⟨fun _ hhead ↦ hdigit '-' (by decide) (List.mem_of_head? hhead), fun _ ↦ ?_⟩
  rintro (⟨t, rfl⟩ | ⟨t, rfl⟩)
  · exact hdigit 'x' (by decide) (List.mem_cons_of_mem _ List.mem_cons_self)
  · exact hdigit 'X' (by decide) (List.mem_cons_of_mem _ List.mem_cons_self)

theorem sign_natAbs (a : Int) :
    (if decide (a < 0) then -(a.natAbs : Int) else a.natAbs) = a := by
  by_cases h : a < 0
  · rw [decide_eq_true h, if_pos rfl]
    omega
  · rw [decide_eq_false h, if_neg Bool.false_ne_true]
    omega

theorem ofHexChars_text_garbled (h : IsRun a.natAbs run) (hg : Garbled run run')
    (hsep : f.Separates (decide (a < 0)) run') : ofHexChars (f.text (decide (a < 0)) run') = a := by
  rw [f.ofHexChars_text (hg.isUnbroken h.isUnbroken) hsep, hg.readDigits_eq, h.readDigits_eq,
    sign_natAbs]

def Frame.bare : Frame := ⟨[], [], [], [], nofun, List.mem_cons_self, nofun, nofun⟩

def Frame.wide : Frame where
  lead := ['\u3000', ' ']
  marker := ['0', 'X']
  gap := [' ']
  tail := ['\n', 'z']
  lead_blank := List.forall_mem_cons.mpr ⟨rfl, List.forall_mem_singleton.mpr rfl⟩
  marker_mem := by decide
  gap_blank := List.forall_mem_singleton.mpr rfl
  tail_blank := fun c hc ↦ by cases hc; rfl

theorem render_eq (radix : Nat) (a : Int) : render radix a =
    String.ofList (if decide (a < 0) then '-' :: digits radix a.natAbs
      else digits radix a.natAbs) := by
  simp only [decide_eq_true_eq]
  rfl

theorem text_bare (negative : Bool) (run : List Char) :
    Frame.bare.text negative run = if negative then '-' :: run else run := by
  cases negative with
  | false => exact List.append_nil run
  | true => exact congrArg ('-' :: ·) (List.append_nil run)

theorem exists_render (hr : radix ≤ 16) (hr₂ : 2 ≤ radix) (a : Int) :
    ∃ (negative : Bool) (l : List Char),
    render radix a = String.ofList (if negative then '-' :: l else l) ∧
    (if negative then -(ofDigits radix l : Int) else ofDigits radix l) = a ∧
    (∀ c ∈ l, ∃ k < radix, c = Hex.digit k) ∧
    l ≠ [] ∧ (l.head? = some '0' → l = ['0'] ∧ negative = false) := by
  have hdigits := isNumeral_digits hr hr₂ a.natAbs
  refine ⟨decide (a < 0), digits radix a.natAbs, render_eq radix a, ?_, hdigits.isDigit,
    hdigits.ne_nil, fun hhead ↦ ?_⟩
  · rw [hdigits.ofDigits_eq, sign_natAbs]
  · have hl := hdigits.eq_zero_of_head hhead
    have hzero : ofDigits radix ['0'] = a.natAbs := hl ▸ hdigits.ofDigits_eq
    have habs : 0 = a.natAbs := hzero
    exact ⟨hl, decide_eq_false (by omega)⟩

/-- What is written has the digits of its radix, with neither zeros to spare nor a sign at zero.
Hexadecimal text is read as the number that its run spells, whatever stands around the run and in
place of zeros of it. -/
theorem ofHex_exact (a : Int) :
    ofHex (hex a) = a ∧
    (∀ (f : Frame) (run : List Char), IsRun a.natAbs run →
      ofHex (String.ofList (f.text (decide (a < 0)) run)) = a ∧
      ∀ run', Garbled run run' → f.Separates (decide (a < 0)) run' →
        ofHex (String.ofList (f.text (decide (a < 0)) run')) = a) ∧
    (∀ radix : UInt32, 2 ≤ radix → radix ≤ 16 → ∃ (negative : Bool) (l : List Char),
      render? radix a = .ok (String.ofList (if negative then '-' :: l else l)) ∧
      (if negative then -(ofDigits radix.toNat l : Int) else ofDigits radix.toNat l) = a ∧
      (∀ c ∈ l, ∃ k < radix.toNat, c = Hex.digit k) ∧
      l ≠ [] ∧ (l.head? = some '0' → l = ['0'] ∧ negative = false)) := by
  have hread {f : Frame} {run run' : List Char} (h : IsRun a.natAbs run) (hg : Garbled run run')
      (hsep : f.Separates (decide (a < 0)) run') :
      ofHex (String.ofList (f.text (decide (a < 0)) run')) = a := by
    rw [ofHex, String.toList_ofList, ofHexChars_text_garbled h hg hsep]
  refine ⟨?_, fun f run h ↦ ⟨hread h (garbled_refl run) (h.separates f _), fun run' ↦ hread h⟩,
    fun radix hr₂ hr ↦ ?_⟩
  · have hrun := isRun_digits a.natAbs
    rw [hex, render_eq, ← text_bare]
    exact hread hrun (garbled_refl _) (hrun.separates _ _)
  · rw [render?, if_pos ⟨hr₂, hr⟩]
    simp only [Except.ok.injEq]
    exact exists_render (UInt32.le_iff_toNat_le.mp hr) (UInt32.le_iff_toNat_le.mp hr₂) a

/-- The run has a digit in upper case, and all three zeros are garbled, by what would be a sign and
a marker if the text did not have both already. -/
theorem ofHex_exact_garbled :
    ofHex (hex (-0xab0c)) = -0xab0c ∧ ofHex "\u3000 -0X 00aB0c\nz" = -0xab0c ∧
      ofHex "\u3000 -0X -xaBgc\nz" = -0xab0c ∧
      ∃ (negative : Bool) (l : List Char),
        render? 7 (-0xab0c) = .ok (String.ofList (if negative then '-' :: l else l)) ∧
        (if negative then -(ofDigits 7 l : Int) else ofDigits 7 l) = -0xab0c := by
  obtain ⟨hback, hread, hrender⟩ := ofHex_exact (-0xab0c)
  have hrun : IsRun (-0xab0c : Int).natAbs ['0', '0', 'a', 'B', '0', 'c'] :=
    ⟨2, ['a', 'B', '0', 'c'], rfl, by decide +kernel⟩
  have hg : Garbled ['0', '0', 'a', 'B', '0', 'c'] ['-', 'x', 'a', 'B', 'g', 'c'] := by
    unfold Garbled
    decide
  have hplain : Frame.wide.text (decide ((-0xab0c : Int) < 0)) ['0', '0', 'a', 'B', '0', 'c'] =
      "\u3000 -0X 00aB0c\nz".toList := by decide
  have hgarbled : Frame.wide.text (decide ((-0xab0c : Int) < 0)) ['-', 'x', 'a', 'B', 'g', 'c'] =
      "\u3000 -0X -xaBgc\nz".toList := by decide
  obtain ⟨hread, hreadGarbled⟩ := hread Frame.wide _ hrun
  have hreadGarbled := hreadGarbled _ hg nofun
  rw [hplain, String.ofList_toList] at hread
  rw [hgarbled, String.ofList_toList] at hreadGarbled
  obtain ⟨negative, l, hl, hvalue, -⟩ := hrender 7 (by decide) (by decide)
  exact ⟨hback, hread, hreadGarbled, negative, l, hl, hvalue⟩

end Radix

end ChainAnchor
