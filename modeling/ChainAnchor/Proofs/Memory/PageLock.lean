import ChainAnchor.Memory.PageLock
import Mathlib.Data.List.Count
import Mathlib.Data.List.Nodup
import Mathlib.Data.Nat.Bitwise

namespace ChainAnchor

section

variable {k : Nat} {size : UInt64}

theorem lt_of_toNat_eq_two_pow (hs : size.toNat = 2 ^ k) : k < 64 := by
  have hlt := size.toNat_lt
  rw [hs] at hlt
  exact (Nat.pow_lt_pow_iff_right (by decide)).mp hlt

/-- The page of an address begins at the last multiple of the size that is not above it. -/
theorem toNat_pageBase (hs : size.toNat = 2 ^ k) (a : UInt64) :
    (pageBase size a).toNat = a.toNat / 2 ^ k * 2 ^ k := by
  have hk := lt_of_toNat_eq_two_pow hs
  have hpos : 0 < 2 ^ k := Nat.two_pow_pos k
  have hle : 2 ^ k ≤ 2 ^ 64 := Nat.pow_le_pow_right (by decide) hk.le
  have hone : (1 : UInt64) ≤ size := by
    rw [UInt64.le_iff_toNat_le, hs]
    exact hpos
  have hmask : (~~~(size - 1)).toNat = 2 ^ 64 - (2 ^ k - 1 + 1) := by
    rw [UInt64.toNat_not, UInt64.toNat_sub_of_le _ _ hone, hs]
    change 2 ^ 64 - 1 - (2 ^ k - 1) = _
    omega
  rw [pageBase, UInt64.toNat_and, hmask]
  apply Nat.eq_of_testBit_eq
  intro i
  rw [Nat.testBit_and, Nat.testBit_two_pow_sub_succ (by omega), Nat.testBit_two_pow_sub_one,
    Nat.testBit_mul_two_pow, Nat.testBit_div_two_pow]
  by_cases hi : k ≤ i
  · rw [Nat.sub_add_cancel hi]
    by_cases h64 : i < 64
    · simp [hi, h64, Nat.not_lt.mpr hi]
    · have hbit : a.toNat.testBit i = false :=
        Nat.testBit_lt_two_pow (a.toNat_lt.trans_le (Nat.pow_le_pow_right (by decide) (by omega)))
      simp [hbit]
  · simp [hi, Nat.lt_of_not_le hi]

end

namespace Region

variable {k : Nat} {size page : UInt64} {r : Region}

def Fits (r : Region) : Prop := r.address.toNat + r.extent.toNat ≤ UInt64.size

def Touches (size : UInt64) (r : Region) (page : UInt64) : Prop :=
  ∃ a : UInt64, r.address.toNat ≤ a.toNat ∧ a.toNat < r.address.toNat + r.extent.toNat ∧
    pageBase size a = page

theorem extent_pos (r : Region) : 0 < r.extent.toNat := by
  rw [extent]
  split
  · decide
  next h => exact Nat.pos_of_ne_zero fun h0 ↦ h (UInt64.toNat_inj.mp h0)

theorem toNat_page {i : Nat} (hle : r.firstPage size ≤ r.lastPage size)
    (hi : i ≤ ((r.lastPage size - r.firstPage size) / size).toNat) :
    (r.firstPage size + UInt64.ofNat i * size).toNat =
      (r.firstPage size).toNat + i * size.toNat := by
  rw [UInt64.toNat_div, UInt64.toNat_sub_of_le _ _ hle] at hi
  have hlast := (r.lastPage size).toNat_lt
  have hmul : i * size.toNat ≤ (r.lastPage size).toNat - (r.firstPage size).toNat :=
    (Nat.mul_le_mul_right _ hi).trans (Nat.div_mul_le_self _ _)
  have hlt : i < 2 ^ 64 := by
    have hdiv := Nat.div_le_self ((r.lastPage size).toNat - (r.firstPage size).toNat) size.toNat
    omega
  rw [UInt64.toNat_add, UInt64.toNat_mul, UInt64.toNat_ofNat_of_lt' hlt, Nat.mod_eq_of_lt,
    Nat.mod_eq_of_lt]
  · rw [UInt64.le_iff_toNat_le] at hle
    omega
  · rw [UInt64.le_iff_toNat_le] at hle
    rw [Nat.mod_eq_of_lt (by omega)]
    omega

theorem nodup_pages (hs : size.toNat = 2 ^ k) (r : Region) : (r.pages size).Nodup := by
  rw [pages]
  split
  · exact List.nodup_nil
  next hle =>
    refine List.Nodup.map_on (fun i hi j hj he ↦ ?_) List.nodup_range
    have hle := UInt64.not_lt.mp hle
    have hn := congrArg UInt64.toNat he
    rw [toNat_page hle (Nat.le_of_lt_succ (List.mem_range.mp hi)),
      toNat_page hle (Nat.le_of_lt_succ (List.mem_range.mp hj)), hs] at hn
    exact Nat.eq_of_mul_eq_mul_right (Nat.two_pow_pos k) (Nat.add_left_cancel hn)

theorem toNat_last (hr : r.Fits) :
    (r.address + r.extent - 1).toNat = r.address.toNat + r.extent.toNat - 1 := by
  have hpos := r.extent_pos
  have hsize : UInt64.size = 2 ^ 64 := rfl
  rw [Fits] at hr
  rw [UInt64.toNat_sub, UInt64.toNat_add, UInt64.toNat_one]
  omega

/-- From the first page on, the pages of a region are numbered up to the last one. -/
theorem mem_pages_iff (hs : size.toNat = 2 ^ k) (hr : r.Fits) :
    page ∈ r.pages size ↔ ∃ q, r.address.toNat / 2 ^ k ≤ q ∧
      q ≤ (r.address.toNat + r.extent.toNat - 1) / 2 ^ k ∧ page.toNat = q * 2 ^ k := by
  have hpos := r.extent_pos
  have hfirst : (r.firstPage size).toNat = r.address.toNat / 2 ^ k * 2 ^ k := toNat_pageBase hs _
  have hlast : (r.lastPage size).toNat =
      (r.address.toNat + r.extent.toNat - 1) / 2 ^ k * 2 ^ k := by
    rw [lastPage, toNat_pageBase hs, toNat_last hr]
  have hq : r.address.toNat / 2 ^ k ≤ (r.address.toNat + r.extent.toNat - 1) / 2 ^ k :=
    Nat.div_le_div_right (by omega)
  have hle : r.firstPage size ≤ r.lastPage size := by
    rw [UInt64.le_iff_toNat_le, hfirst, hlast]
    exact Nat.mul_le_mul_right _ hq
  have hsteps : ((r.lastPage size - r.firstPage size) / size).toNat =
      (r.address.toNat + r.extent.toNat - 1) / 2 ^ k - r.address.toNat / 2 ^ k := by
    rw [UInt64.toNat_div, UInt64.toNat_sub_of_le _ _ hle, hfirst, hlast, hs, ← Nat.sub_mul,
      Nat.mul_div_cancel _ (Nat.two_pow_pos k)]
  rw [pages, if_neg (UInt64.not_lt.mpr hle), List.mem_map]
  constructor
  · rintro ⟨i, hi, rfl⟩
    have hi := Nat.le_of_lt_succ (List.mem_range.mp hi)
    rw [toNat_page hle hi, hfirst, hs, ← Nat.add_mul]
    exact ⟨_, Nat.le_add_right _ i, by omega, rfl⟩
  · rintro ⟨q, hge, hle', hpage⟩
    have hi : q - r.address.toNat / 2 ^ k ≤
        ((r.lastPage size - r.firstPage size) / size).toNat := by omega
    refine ⟨_, List.mem_range.mpr (Nat.lt_succ_of_le hi), UInt64.toNat_inj.mp ?_⟩
    rw [toNat_page hle hi, hfirst, hs, ← Nat.add_mul, Nat.add_sub_cancel' hge, hpage]

/-- The pages of a region are those that its addresses lie on. -/
theorem mem_pages_iff_touches (hs : size.toNat = 2 ^ k) (hr : r.Fits) :
    page ∈ r.pages size ↔ r.Touches size page := by
  have hpos := r.extent_pos
  rw [mem_pages_iff hs hr]
  constructor
  · rintro ⟨q, hge, hle, hpage⟩
    -- the page begins inside of the region unless it is the first one
    have hstart : q * 2 ^ k ≤ r.address.toNat + r.extent.toNat - 1 :=
      (Nat.mul_le_mul_right _ hle).trans (Nat.div_mul_le_self _ _)
    have haddr : r.address.toNat < (q + 1) * 2 ^ k :=
      (Nat.div_lt_iff_lt_mul (Nat.two_pow_pos k)).mp (Nat.lt_succ_of_le hge)
    have hstep : q * 2 ^ k < (q + 1) * 2 ^ k :=
      Nat.mul_lt_mul_of_pos_right q.lt_succ_self (Nat.two_pow_pos k)
    have hsize : UInt64.size = 2 ^ 64 := rfl
    rw [Fits] at hr
    have ha : (UInt64.ofNat (max r.address.toNat (q * 2 ^ k))).toNat =
        max r.address.toNat (q * 2 ^ k) := UInt64.toNat_ofNat_of_lt' (by omega)
    refine ⟨UInt64.ofNat (max r.address.toNat (q * 2 ^ k)), by omega, by omega,
      UInt64.toNat_inj.mp ?_⟩
    rw [toNat_pageBase hs, ha, hpage, Nat.div_eq_of_lt_le (le_max_right _ _) (max_lt haddr hstep)]
  · rintro ⟨a, hge, hlt, rfl⟩
    exact ⟨a.toNat / 2 ^ k, Nat.div_le_div_right hge, Nat.div_le_div_right (by omega),
      toNat_pageBase hs a⟩

end Region

namespace PageLock

variable {k : Nat} {size page : UInt64} {pages : List UInt64} {r : Region} {p q : PageLock}
  {f : UInt64 → Nat} {grants : UInt64 → Bool}

/-- There are so many regions on each page; a page without any is not mentioned and not held. -/
structure Shows (p : PageLock) (f : UInt64 → Nat) : Prop where
  users : ∀ page, p.users[page]? = if f page = 0 then none else some (f page)
  held : ∀ page, page ∈ p.held ↔ 0 < f page

theorem Shows.count (hp : p.Shows f) (page : UInt64) : p.count page = f page := by
  rw [PageLock.count, Std.ExtTreeMap.getD_eq_getD_getElem?, hp.users]
  split
  next h => exact h.symm
  next => rfl

theorem Shows.eq (hp : p.Shows f) (hq : q.Shows f) : p = q := by
  obtain ⟨users, held⟩ := p
  obtain ⟨users', held'⟩ := q
  have hu : users = users' := Std.ExtTreeMap.ext_getElem? fun page ↦
    (hp.users page).trans (hq.users page).symm
  have hh : held = held' := Std.ExtTreeSet.ext_mem fun page ↦
    (hp.held page).trans (hq.held page).symm
  rw [hu, hh]

theorem shows_empty : empty.Shows fun _ ↦ 0 where
  users _ := Std.ExtTreeMap.getElem?_empty
  held _ := iff_of_false Std.ExtTreeSet.not_mem_empty (Nat.lt_irrefl 0)

theorem getElem?_retain (p : PageLock) (page x : UInt64) :
    (p.retain page).users[x]? = if page = x then some (p.count page + 1) else p.users[x]? := by
  simp only [retain, Std.ExtTreeMap.getElem?_insert, Std.LawfulEqCmp.compare_eq_iff_eq]

theorem mem_held_retain (p : PageLock) (page x : UInt64) :
    x ∈ (p.retain page).held ↔ p.count page = 0 ∧ page = x ∨ x ∈ p.held := by
  rw [retain]
  by_cases h0 : p.count page = 0
  · rw [if_pos h0, Std.ExtTreeSet.mem_insert, Std.LawfulEqCmp.compare_eq_iff_eq,
      and_iff_right h0]
  · simp [h0]

theorem Shows.retain (hp : p.Shows f) (page : UInt64) :
    (p.retain page).Shows fun x ↦ f x + if page = x then 1 else 0 := by
  refine ⟨fun x ↦ ?_, fun x ↦ ?_⟩
  · rw [getElem?_retain, hp.count, hp.users]
    grind
  · rw [mem_held_retain, hp.count, hp.held]
    grind

theorem Shows.release (hp : p.Shows fun x ↦ f x + if page = x then 1 else 0) :
    (p.release page).Shows f := by
  have hpage : p.users[page]? = some (f page + 1) := by
    rw [hp.users]
    simp
  rw [PageLock.release, hpage]
  dsimp only
  rw [Nat.add_sub_cancel]
  split
  · refine ⟨fun x ↦ ?_, fun x ↦ ?_⟩
    · simp only [Std.ExtTreeMap.getElem?_erase, Std.LawfulEqCmp.compare_eq_iff_eq, hp.users]
      grind
    · rw [Std.ExtTreeSet.mem_erase, Ne, Std.LawfulEqCmp.compare_eq_iff_eq, hp.held]
      grind
  · refine ⟨fun x ↦ ?_, fun x ↦ ?_⟩
    · simp only [Std.ExtTreeMap.getElem?_insert, Std.LawfulEqCmp.compare_eq_iff_eq, hp.users]
      grind
    · rw [hp.held]
      grind

theorem Shows.retains (hp : p.Shows f) (pages : List UInt64) :
    (pages.foldl PageLock.retain p).Shows fun x ↦ f x + pages.count x := by
  induction pages generalizing p f with
  | nil => exact hp
  | cons page pages ih =>
    have he : (fun x ↦ f x + (page :: pages).count x) =
        fun x ↦ f x + (if page = x then 1 else 0) + pages.count x := by
      funext x
      simp only [List.count_cons, beq_iff_eq]
      omega
    rw [he]
    exact ih (hp.retain page)

def Covers (p : PageLock) : List UInt64 → Prop
  | [] => True
  | page :: pages => 0 < p.count page ∧ (p.release page).Covers pages

theorem Shows.releases (hp : p.Shows fun x ↦ f x + pages.count x) :
    (p.releaseAll pages).Shows f ∧ p.Covers pages := by
  induction pages generalizing p with
  | nil => exact ⟨hp, trivial⟩
  | cons page pages ih =>
    have hpos : 0 < p.count page := by
      rw [hp.count, List.count_cons_self]
      omega
    have hq : (p.release page).Shows fun x ↦ f x + pages.count x := by
      refine Shows.release ?_
      simpa only [List.count_cons, beq_iff_eq, Nat.add_assoc] using hp
    exact ⟨(ih hq).1, hpos, (ih hq).2⟩

/-- To retain pages and release them again changes nothing. -/
theorem Shows.releaseAll_retains (hp : p.Shows f) (pages : List UInt64) :
    (pages.foldl PageLock.retain p).releaseAll pages = p :=
  (hp.retains pages).releases.1.eq hp

/-- Either all pages are retained, or one that no region was on is not granted and those before it
are given back. -/
theorem retainAll_cases (grants : UInt64 → Bool) (done pages : List UInt64) (p : PageLock) :
    retainAll grants done pages p = (true, pages.foldl retain p) ∧
        (∀ pre page post, pages = pre ++ page :: post → (pre.foldl retain p).count page = 0 →
          grants page = true) ∨
      ∃ pre page post, pages = pre ++ page :: post ∧ (pre.foldl retain p).count page = 0 ∧
        grants page = false ∧
        retainAll grants done pages p = (false, (pre.foldl retain p).releaseAll (done ++ pre)) := by
  induction pages generalizing done p with
  | nil => exact Or.inl ⟨rfl, fun pre page post h ↦ absurd h (by simp)⟩
  | cons page pages ih =>
    rw [retainAll]
    by_cases hrefused : p.count page = 0 ∧ grants page = false
    · refine Or.inr ⟨[], page, pages, rfl, hrefused.1, hrefused.2, ?_⟩
      simp [hrefused]
    · have hif : (p.count page = 0 && !grants page) = false := by
        simpa using hrefused
      rw [if_neg (by simp [hif])]
      rcases ih (done ++ [page]) (p.retain page) with ⟨he, hall⟩ | ⟨pre, x, post, rfl, h0, hx, he⟩
      · refine Or.inl ⟨he, fun pre x post hp h0 ↦ ?_⟩
        cases pre with
        | nil =>
          obtain ⟨rfl, rfl⟩ := List.cons.inj hp
          simpa using fun hg ↦ hrefused ⟨h0, hg⟩
        | cons y pre =>
          obtain ⟨rfl, rfl⟩ := List.cons.inj hp
          exact hall pre x post rfl h0
      · exact Or.inr ⟨page :: pre, x, post, rfl, h0, hx, by rw [he, List.append_assoc]; rfl⟩

def regionsOn (size : UInt64) (live : List Region) (page : UInt64) : Nat :=
  live.countP fun r ↦ page ∈ r.pages size

theorem regionsOn_cons (hs : size.toNat = 2 ^ k) (r : Region) (live : List Region) :
    regionsOn size (r :: live) = fun x ↦ regionsOn size live x + (r.pages size).count x := by
  funext x
  rw [regionsOn, List.countP_cons, (r.nodup_pages hs).count]
  simp [regionsOn]

theorem regionsOn_erase (hs : size.toNat = 2 ^ k) {live : List Region} (hr : r ∈ live) :
    regionsOn size live =
      fun x ↦ regionsOn size (live.erase r) x + (r.pages size).count x := by
  rw [← regionsOn_cons hs]
  funext x
  exact (List.perm_cons_erase hr).countP_eq _

open Classical in
noncomputable def touching (size : UInt64) (live : List Region) (page : UInt64) : Nat :=
  live.countP fun r ↦ r.Touches size page

/-- Regions within the memory are counted on the pages that they touch. -/
theorem regionsOn_eq_touching (hs : size.toNat = 2 ^ k) {live : List Region}
    (hf : ∀ r ∈ live, r.Fits) (page : UInt64) :
    regionsOn size live page = touching size live page := by
  refine List.countP_congr fun r hr ↦ ?_
  have htouch : page ∈ r.pages size ↔ r.Touches size page :=
    Region.mem_pages_iff_touches hs (hf r hr)
  simp only [decide_eq_true_eq, htouch]

/-- What calls lead to, with the regions that are locked.  A region is unlocked only if it is locked
at that time; one that is locked several times is unlocked as often. -/
inductive Reachable (size : UInt64) : PageLock → List Region → Prop
  | empty : Reachable size empty []
  | lock {p : PageLock} {live : List Region} (hp : Reachable size p live) (grants : UInt64 → Bool)
      (r : Region) (h : (p.lock size grants r).1 = true) :
      Reachable size (p.lock size grants r).2 (r :: live)
  | refuse {p : PageLock} {live : List Region} (hp : Reachable size p live)
      (grants : UInt64 → Bool) (r : Region) (h : (p.lock size grants r).1 = false) :
      Reachable size (p.lock size grants r).2 live
  | unlock {p : PageLock} {live : List Region} {r : Region} (hp : Reachable size p live)
      (hr : r ∈ live) : Reachable size (p.unlock size r) (live.erase r)

theorem Shows.lock (hp : p.Shows f) (grants : UInt64 → Bool) (r : Region) :
    (p.lock size grants r = (true, (r.pages size).foldl PageLock.retain p)) ∨
      p.lock size grants r = (false, p) := by
  rcases retainAll_cases grants [] (r.pages size) p with ⟨he, -⟩ | ⟨pre, x, post, -, -, -, he⟩
  · exact Or.inl he
  · rw [List.nil_append, hp.releaseAll_retains] at he
    exact Or.inr he

theorem Reachable.shows {live : List Region} (hs : size.toNat = 2 ^ k)
    (hp : Reachable size p live) : p.Shows (regionsOn size live) := by
  induction hp with
  | empty => exact shows_empty
  | lock hp grants r h ih =>
    rcases ih.lock grants r with he | he
    · rw [he, regionsOn_cons hs]
      exact ih.retains _
    · rw [he] at h
      cases h
  | refuse hp grants r h ih =>
    rcases ih.lock grants r with he | he
    · rw [he] at h
      cases h
    · rw [he]
      exact ih
  | unlock hp hr ih =>
    rw [regionsOn_erase hs hr] at ih
    exact ih.releases.1

/-- A region is locked exactly if each of its pages is held already or granted. -/
theorem Shows.lock_iff (hs : size.toNat = 2 ^ k) (hp : p.Shows f) :
    (p.lock size grants r).1 = true ↔
      ∀ page ∈ r.pages size, page ∉ p.held → grants page = true := by
  have hfree (page : UInt64) : page ∉ p.held ↔ f page = 0 := by
    rw [hp.held]
    omega
  simp only [hfree]
  rcases retainAll_cases grants [] (r.pages size) p with
    ⟨he, hall⟩ | ⟨pre, x, post, hsplit, h0, hx, he⟩
  · refine iff_of_true (congrArg Prod.fst he) fun page hpage h0 ↦ ?_
    obtain ⟨pre, post, hsplit⟩ := List.append_of_mem hpage
    refine hall pre page post hsplit ?_
    have hnodup := hsplit ▸ r.nodup_pages hs
    have hnot : page ∉ pre := fun hm ↦
      (List.nodup_append.mp hnodup).2.2 page hm page List.mem_cons_self rfl
    rw [(hp.retains pre).count, h0, List.count_eq_zero_of_not_mem hnot]
  · refine iff_of_false (by rw [PageLock.lock, he]; exact Bool.false_ne_true) fun hall ↦ ?_
    rw [(hp.retains pre).count] at h0
    have hmem : x ∈ r.pages size := hsplit ▸ List.mem_append_right _ List.mem_cons_self
    rw [hall x hmem (by omega)] at hx
    cases hx

structure Accounts (size : UInt64) (p : PageLock) (live : List Region) : Prop where
  users : ∀ page, p.users[page]? =
    if regionsOn size live page = 0 then none else some (regionsOn size live page)
  held : ∀ page, page ∈ p.held ↔ 0 < regionsOn size live page
  count_eq : (∀ r ∈ live, r.Fits) → ∀ page, p.count page = touching size live page
  /-- A word holds the numbers unless it cannot tell how many regions there are. -/
  count_le : ∀ page, p.count page ≤ live.length
  /-- The pages of a region, on which it counts, are those that it touches. -/
  pages : ∀ r : Region, r.Fits → ∀ page, page ∈ r.pages size ↔ r.Touches size page
  lock_iff : ∀ grants r, (p.lock size grants r).1 = true ↔
    ∀ page ∈ r.pages size, page ∉ p.held → grants page = true
  lock_false : ∀ grants r, (p.lock size grants r).1 = false → (p.lock size grants r).2 = p
  /-- No number is lowered that is zero, neither when a region is unlocked nor when pages that were
  retained for it are given back. -/
  unlock_covers : ∀ r ∈ live, p.Covers (r.pages size)
  lock_covers : ∀ pages : List UInt64, (pages.foldl retain p).Covers pages

/-- Whatever regions were locked, refused and unlocked, overlapping or not, the numbers are right,
exactly the pages with a locked region are held, and a refusal changes nothing. -/
theorem accounts_of_reachable {live : List Region} (hs : size.toNat = 2 ^ k)
    (hp : Reachable size p live) : p.Accounts size live := by
  have hshows := hp.shows hs
  refine ⟨hshows.users, hshows.held,
    fun hf page ↦ (hshows.count page).trans (regionsOn_eq_touching hs hf page),
    fun page ↦ hshows.count page ▸ List.countP_le_length,
    fun r hr page ↦ Region.mem_pages_iff_touches hs hr, fun grants r ↦ hshows.lock_iff hs,
    fun grants r h ↦ ?_, fun r hr ↦ ?_, fun pages ↦ (hshows.retains pages).releases.2⟩
  · rcases hshows.lock grants r with he | he
    · rw [he] at h
      cases h
    · rw [he]
  · rw [regionsOn_erase hs hr] at hshows
    exact hshows.releases.2

def shared : PageLock :=
  let p := (empty.lock 4096 (fun _ ↦ true) ⟨8176, 32⟩).2
  let p := (p.lock 4096 (fun _ ↦ true) ⟨8192, 64⟩).2
  ((p.lock 4096 (fun _ ↦ false) ⟨12000, 4096⟩).2).unlock 4096 ⟨8176, 32⟩

theorem accounts_of_reachable_shared :
    (4096 : UInt64).toNat = 2 ^ 12 ∧ Reachable 4096 shared [⟨8192, 64⟩] ∧
      shared.Accounts 4096 [⟨8192, 64⟩] ∧ shared.count 4096 = 0 ∧ shared.count 8192 = 1 := by
  have hs : (4096 : UInt64).toNat = 2 ^ 12 := by decide
  have hp : Reachable 4096 shared [⟨8192, 64⟩] := by
    have hlive : (⟨8176, 32⟩ : Region) ∈ [(⟨8192, 64⟩ : Region), ⟨8176, 32⟩] := by decide
    refine .unlock (.refuse (.lock (.lock .empty _ _ ?_) _ _ ?_) _ _ ?_) hlive <;> decide +kernel
  exact ⟨hs, hp, accounts_of_reachable hs hp, by decide +kernel, by decide +kernel⟩

end PageLock

end ChainAnchor
