import ChainAnchor.Store
import Mathlib.Data.List.Induction
import Mathlib.Data.List.TakeWhile

namespace ChainAnchor.Store

inductive Request
  | begin
  | write (key val : Bytes)
  | commit
  | abort
  | read (key : Bytes)

inductive Reply
  | done
  | value (val : Option Bytes)
  deriving DecidableEq

def settle (s : Store) : Except StoreError Store → Except StoreError Reply × Store
  | .ok s' => (.ok .done, s')
  | .error e => (.error e, s)

namespace Request

def serve (s : Store) : Request → Except StoreError Reply × Store
  | begin => s.settle s.begin
  | write key val => s.settle (s.write key val)
  | commit => s.settle s.commit
  | abort => s.settle s.abort
  | read key => (.ok (.value (s.get? key)), s)

def begins : Request → Bool
  | begin => true
  | _ => false

def ends : Request → Bool
  | commit => true
  | abort => true
  | _ => false

def written? : Request → Option (Bytes × Bytes)
  | write key val => some (key, val)
  | _ => none

end Request

def run (s : Store) (rs : List Request) : Store := rs.foldl (fun s r ↦ (r.serve s).2) s

def Open (rs : List Request) : Prop :=
  ∃ before since, rs = before ++ .begin :: since ∧ ∀ r ∈ since, r.ends = false

inductive Refused (rs : List Request) : Request → StoreError → Prop
  | begin : Open rs → Refused rs .begin .transactionInProgress
  | write {key val : Bytes} : ¬Open rs → Refused rs (.write key val) .noTransaction
  | commit : ¬Open rs → Refused rs .commit .noTransaction
  | abort : ¬Open rs → Refused rs .abort .noTransaction

/-- The transactions that requests commit, in this order, each by its writes.  A transaction takes
up all that comes until the next request that ends one. -/
def transactions : List Request → List (List (Bytes × Bytes))
  | [] => []
  | r :: since =>
    if r.begins then
      match since.find? Request.ends with
      | some .commit => (since.takeWhile (!·.ends)).filterMap Request.written? ::
        transactions (since.dropWhile (!·.ends))
      | _ => transactions (since.dropWhile (!·.ends))
    else transactions since
termination_by rs => rs.length
decreasing_by
  all_goals
    simp only [List.length_cons]
    have hle := (List.dropWhile_sublist (!·.ends) : (since.dropWhile _).Sublist since).length_le
    omega

def lastWrite? (writes : List (Bytes × Bytes)) (key : Bytes) : Option Bytes :=
  writes.reverse.lookup key

variable {s : Store} {rs since : List Request} {r : Request} {e : StoreError}
  {l : List (Bytes × Bytes)}

theorem open_concat : Open (rs ++ [r]) ↔ r = .begin ∨ (Open rs ∧ r.ends = false) := by
  constructor
  · rintro ⟨before, since, he, hs⟩
    rcases since.eq_nil_or_concat with rfl | ⟨since, x, rfl⟩
    · exact Or.inl (List.cons.inj (List.append_inj_right' he rfl)).1
    · have he : rs ++ [r] = (before ++ .begin :: since) ++ [x] := by simpa using he
      rw [List.concat_eq_append] at hs
      obtain ⟨hrs, hx⟩ := List.append_inj' he rfl
      obtain rfl := List.singleton_inj.mp hx
      refine Or.inr ⟨⟨before, since, hrs, fun y hy ↦ hs y ?_⟩, hs r ?_⟩
      · exact List.mem_append_left _ hy
      · exact List.mem_append_right _ (List.mem_singleton_self r)
  · rintro (rfl | ⟨⟨before, since, rfl, hs⟩, hr⟩)
    · exact ⟨rs, [], rfl, fun _ hx ↦ absurd hx List.not_mem_nil⟩
    · refine ⟨before, since ++ [r], by simp, fun x hx ↦ ?_⟩
      rcases List.mem_append.mp hx with hx | hx
      · exact hs x hx
      · rwa [List.mem_singleton.mp hx]

theorem not_open_nil : ¬Open [] := by
  rintro ⟨before, since, he, -⟩
  cases before <;> cases he

theorem serve_of_idle (hs : s.staged = none) (r : Request) :
    r.serve s = match r with
      | .begin => (.ok .done, { s with staged := some [] })
      | .read key => (.ok (.value (s.get? key)), s)
      | _ => (.error .noTransaction, s) := by
  cases r <;>
    simp only [Request.serve, Store.begin, Store.write, Store.commit, Store.abort, hs, settle]

theorem serve_of_open (hs : s.staged = some l) (r : Request) :
    r.serve s = match r with
      | .begin => (.error .transactionInProgress, s)
      | .write key val => (.ok .done, { s with staged := some (l ++ [(key, val)]) })
      | .commit => (.ok .done, ⟨l.foldl (fun m w ↦ m.insert w.1 w.2) s.committed, none⟩)
      | .abort => (.ok .done, { s with staged := none })
      | .read key => (.ok (.value (s.get? key)), s) := by
  cases r <;>
    simp only [Request.serve, Store.begin, Store.write, Store.commit, Store.abort, hs, settle]

theorem isSome_staged_serve (s : Store) (r : Request) :
    (r.serve s).2.staged.isSome = true ↔
      r = .begin ∨ (s.staged.isSome = true ∧ r.ends = false) := by
  cases hs : s.staged with
  | none =>
    rw [serve_of_idle hs]
    cases r <;> simp [hs]
  | some l =>
    rw [serve_of_open hs]
    cases r <;> simp [hs, Request.ends]

theorem serve_error_iff (hs : s.staged.isSome = true ↔ Open rs) :
    (r.serve s).1 = .error e ↔ Refused rs r e := by
  cases hst : s.staged with
  | none =>
    have ho : ¬Open rs := fun ho ↦ by simpa [hst] using hs.mpr ho
    rw [serve_of_idle hst]
    constructor
    · intro he
      cases r <;> cases he
      · exact .write ho
      · exact .commit ho
      · exact .abort ho
    · rintro (ho' | - | - | -)
      · exact absurd ho' ho
      all_goals rfl
  | some l =>
    have ho : Open rs := hs.mp (by rw [hst]; rfl)
    rw [serve_of_open hst]
    constructor
    · intro he
      cases r <;> cases he
      exact .begin ho
    · rintro (- | hn | hn | hn)
      · rfl
      all_goals exact absurd ho hn

theorem serve_of_error (he : (r.serve s).1 = .error e) : (r.serve s).2 = s := by
  cases hs : s.staged with
  | none =>
    rw [serve_of_idle hs] at he ⊢
    cases r with
    | begin => cases he
    | read key => cases he
    | _ => rfl
  | some l =>
    rw [serve_of_open hs] at he ⊢
    cases r with
    | begin => rfl
    | _ => cases he

theorem run_append (s : Store) (rs rs' : List Request) :
    s.run (rs ++ rs') = (s.run rs).run rs' := List.foldl_append

theorem isSome_staged_run (rs : List Request) :
    (empty.run rs).staged.isSome = true ↔ Open rs := by
  induction rs using List.reverseRecOn with
  | nil => exact iff_of_false (fun h ↦ by cases h) not_open_nil
  | append_singleton rs r ih =>
    rw [run_append, open_concat, ← ih]
    exact isSome_staged_serve _ r

theorem run_of_open (hs : s.staged = some l) (hr : ∀ r ∈ rs, r.ends = false) :
    s.run rs = { s with staged := some (l ++ rs.filterMap Request.written?) } := by
  induction rs generalizing s l with
  | nil => rw [List.filterMap_nil, List.append_nil, ← hs]; rfl
  | cons r rs ih =>
    obtain ⟨hr, hrs⟩ := List.forall_mem_cons.mp hr
    change (r.serve s).2.run rs = _
    rw [serve_of_open hs]
    cases r with
    | begin => exact ih hs hrs
    | write key val =>
      rw [ih rfl hrs, List.append_assoc]
      rfl
    | commit => cases hr
    | abort => cases hr
    | read key => exact ih hs hrs

theorem run_begin (hs : s.staged = none) (since : List Request) :
    s.run (.begin :: since) =
      run { s with staged := some ((since.takeWhile (!·.ends)).filterMap Request.written?) }
        (since.dropWhile (!·.ends)) := by
  change (Request.begin.serve s).2.run since = _
  rw [serve_of_idle hs]
  have hinner : ∀ r ∈ since.takeWhile (!·.ends), r.ends = false := by
    intro r hr
    simpa using List.all_eq_true.mp List.all_takeWhile r hr
  conv_lhs => rw [← since.takeWhile_append_dropWhile (p := (!·.ends))]
  rw [run_append, run_of_open rfl hinner, List.nil_append]

theorem run_of_ends (hs : s.staged = none) (hr : r.ends = true) (rs : List Request) :
    s.run (r :: rs) = s.run rs := by
  change (r.serve s).2.run rs = _
  rw [serve_of_idle hs]
  cases r with
  | begin => cases hr
  | _ => rfl

/-- A store without a transaction takes over the transactions that requests commit. -/
theorem committed_run (hs : s.staged = none) (rs : List Request) :
    (s.run rs).committed =
      (transactions rs).flatten.foldl (fun m w ↦ m.insert w.1 w.2) s.committed := by
  fun_induction transactions rs generalizing s with
  | case1 => rfl
  | case2 r since hb hc ih =>
    cases r with
    | begin =>
      have hfind := since.find?_eq_head?_dropWhile_not Request.ends
      rw [run_begin hs, List.flatten_cons, List.foldl_append]
      cases hrest : since.dropWhile (!·.ends) with
      | nil => simp [hrest, hc] at hfind
      | cons x rest =>
        rw [hrest, hc] at hfind
        rw [hrest] at ih
        obtain rfl : .commit = x := Option.some.inj hfind
        -- the commit that ends the transaction does nothing to the store that it leaves
        refine (congrArg committed ?_).trans (ih (s := ⟨_, none⟩) rfl)
        exact (run_of_ends rfl rfl rest).symm
    | _ => cases hb
  | case3 r since hb hc ih =>
    cases r with
    | begin =>
      have hfind := since.find?_eq_head?_dropWhile_not Request.ends
      rw [run_begin hs, ← ih hs]
      cases hrest : since.dropWhile (!·.ends) with
      | nil => rfl
      | cons x rest =>
        rw [hrest] at hfind
        have hends := List.find?_some hfind
        rw [run_of_ends hs hends]
        cases x with
        | commit => exact absurd hfind hc
        | abort =>
          cases s
          cases hs
          rfl
        | _ => cases hends
    | _ => cases hb
  | case4 r since hb ih =>
    change ((r.serve s).2.run since).committed = _
    rw [serve_of_idle hs]
    cases r with
    | begin => exact absurd rfl hb
    | _ => exact ih hs

theorem getElem?_foldl_insert (m : Std.ExtTreeMap Bytes Bytes) (l : List (Bytes × Bytes))
    (key : Bytes) :
    (l.foldl (fun m w ↦ m.insert w.1 w.2) m)[key]? = (lastWrite? l key).or m[key]? := by
  induction l generalizing m with
  | nil => rfl
  | cons w l ih =>
    obtain ⟨k, v⟩ := w
    rw [List.foldl_cons, ih, lastWrite?, lastWrite?, List.reverse_cons, List.lookup_append,
      Option.or_assoc, Std.ExtTreeMap.getElem?_insert]
    congr 1
    by_cases he : k = key
    · simp [he]
    · have hne : (key == k) = false := beq_eq_false_iff_ne.mpr (Ne.symm he)
      simp [he, List.lookup_cons, hne]

theorem get?_run (rs : List Request) (key : Bytes) :
    (empty.run rs).get? key = lastWrite? (transactions rs).flatten key := by
  rw [get?, committed_run rfl, getElem?_foldl_insert]
  exact Option.or_none

/-- Stores and the handles that refer to them.  A clone refers to the store of its original. -/
structure Pool where
  stores : Nat → Store
  created : Nat
  handles : List Nat

namespace Pool

def empty : Pool := ⟨fun _ ↦ .empty, 0, []⟩

inductive Event
  | create
  | clone (handle : Nat)
  | call (handle : Nat) (r : Request)

def apply (p : Pool) : Event → Pool
  | .create => { p with created := p.created + 1, handles := p.handles ++ [p.created] }
  | .clone i => { p with handles := p.handles ++ p.handles[i]?.toList }
  | .call i r => match p.handles[i]? with
    | none => p
    | some a => { p with stores := Function.update p.stores a (r.serve (p.stores a)).2 }

def run (p : Pool) (es : List Event) : Pool := es.foldl apply p

def reply? (p : Pool) (i : Nat) (r : Request) : Option (Except StoreError Reply) :=
  p.handles[i]?.map fun a ↦ (r.serve (p.stores a)).1

def Event.request? (p : Pool) (a : Nat) : Event → Option Request
  | call i r => if p.handles[i]? = some a then some r else none
  | _ => none

def served (p : Pool) (a : Nat) : List Event → List Request
  | [] => []
  | e :: es => (e.request? p a).toList ++ served (p.apply e) a es

variable {p : Pool} {es : List Event} {i a : Nat}

theorem stores_apply (p : Pool) (e : Event) (a : Nat) :
    (p.apply e).stores a = (p.stores a).run (e.request? p a).toList := by
  cases e with
  | create => rfl
  | clone i => rfl
  | call i r =>
    rw [apply, Event.request?]
    cases p.handles[i]? with
    | none => rfl
    | some b =>
      by_cases hb : b = a
      · subst hb
        simp [Store.run]
      · simp [hb, Function.update_of_ne (Ne.symm hb), Store.run]

theorem stores_run (p : Pool) (es : List Event) (a : Nat) :
    (p.run es).stores a = (p.stores a).run (p.served a es) := by
  induction es generalizing p with
  | nil => rfl
  | cons e es ih =>
    change ((p.apply e).run es).stores a = _
    rw [ih, stores_apply, served, run_append]

theorem reply?_run (hi : (empty.run es).handles[i]? = some a) (r : Request) :
    (empty.run es).reply? i r = some (r.serve (Store.empty.run (empty.served a es))).1 := by
  rw [reply?, hi, Option.map_some, stores_run]
  rfl

theorem apply_call_of_error {e : StoreError} {r : Request}
    (he : p.reply? i r = some (.error e)) : p.apply (.call i r) = p := by
  obtain ⟨a, ha, he⟩ := Option.map_eq_some_iff.mp he
  rw [apply, ha]
  simp only [serve_of_error he, Function.update_eq_self]

theorem created_notMem_handles (es : List Event) :
    (empty.run es).created ∉ (empty.run es).handles := by
  have hlt : ∀ a ∈ (empty.run es).handles, a < (empty.run es).created := by
    induction es using List.reverseRecOn with
    | nil => exact fun a ha ↦ absurd ha List.not_mem_nil
    | append_singleton es e ih =>
      have hrun : empty.run (es ++ [e]) = (empty.run es).apply e := List.foldl_append
      rw [hrun]
      cases e with
      | create =>
        intro a ha
        rcases List.mem_append.mp ha with ha | ha
        · exact Nat.lt_succ_of_lt (ih a ha)
        · exact List.mem_singleton.mp ha ▸ Nat.lt_succ_self _
      | clone i =>
        intro a ha
        rcases List.mem_append.mp ha with ha | ha
        · exact ih a ha
        · exact ih a (List.mem_of_getElem? (Option.mem_toList.mp ha))
      | call i r =>
        rw [apply]
        split <;> exact ih
  exact fun h ↦ Nat.lt_irrefl _ (hlt _ h)

/-- Whatever has reached a store and its clones, it holds the last writes of the transactions that
were committed, and refuses what does not fit the transaction that is open or the lack of one; what
it refuses changes nothing. -/
theorem reply_exact (es : List Event) {i a : Nat} (hi : (empty.run es).handles[i]? = some a) :
    let p := empty.run es
    let rs := empty.served a es
    (∀ key, p.reply? i (.read key) =
      some (.ok (.value (lastWrite? (transactions rs).flatten key)))) ∧
    (∀ r e, p.reply? i r = some (.error e) ↔ Refused rs r e) ∧
    (∀ r e, p.reply? i r = some (.error e) → p.apply (.call i r) = p) ∧
    p.created ∉ p.handles := by
  intro p rs
  refine ⟨fun key ↦ ?_, fun r e ↦ ?_, fun r e he ↦ apply_call_of_error he,
    created_notMem_handles es⟩
  · rw [reply?_run hi, ← get?_run]
    rfl
  · rw [reply?_run hi, Option.some.injEq]
    exact serve_error_iff (isSome_staged_run rs)

def sharing : List Event :=
  [.create, .clone 0, .call 0 .begin, .call 1 (.write [1] [10]), .call 1 .begin,
    .call 0 (.write [1] [11]), .call 1 .commit, .call 0 (.write [1] [12]), .call 0 .begin,
    .call 1 (.write [1] [13]), .create, .call 2 .begin, .call 2 (.write [1] [14]),
    .call 2 .commit, .call 0 .abort, .call 1 .begin, .call 0 (.write [1] [15])]

theorem reply_exact_sharing :
    let p := empty.run sharing
    p.handles[1]? = some 0 ∧
      transactions (empty.served 0 sharing) = [[([1], [10]), ([1], [11])]] ∧
      p.reply? 1 (.read [1]) = some (.ok (.value (some [11]))) ∧
      p.reply? 1 (.read [2]) = some (.ok (.value none)) ∧
      (p.reply? 1 .begin = some (.error .transactionInProgress) ∧
        p.apply (.call 1 .begin) = p) := by
  intro p
  have hi : p.handles[1]? = some 0 := by decide
  have ht : transactions (empty.served 0 sharing) = [[([1], [10]), ([1], [11])]] := by
    decide +kernel
  obtain ⟨hget, hrefused, hsame, -⟩ := reply_exact sharing hi
  have hopen : Open (empty.served 0 sharing) := (isSome_staged_run _).mp (by decide)
  have hbegin := (hrefused .begin .transactionInProgress).mpr (.begin hopen)
  refine ⟨hi, ht, ?_, ?_, hbegin, hsame _ _ hbegin⟩
  · rw [hget, ht]
    rfl
  · rw [hget, ht]
    rfl

end Pool

end ChainAnchor.Store
