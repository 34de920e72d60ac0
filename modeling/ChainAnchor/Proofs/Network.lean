import ChainAnchor.Network
import Mathlib.Order.Basic

namespace ChainAnchor.Network

variable {w : Network} {P : Hash → Prop} {h x : Hash}

def Highest (w : Network) (P : Hash → Prop) (h : Hash) : Prop :=
  ∃ height : UInt64, w.hardened[height]? = some h ∧ P h ∧
    ∀ (height' : UInt64) (x : Hash), w.hardened[height']? = some x → P x → height' ≤ height

theorem Highest.unique (hh : w.Highest P h) (hx : w.Highest P x) : h = x := by
  obtain ⟨i, hi, hph, hmax⟩ := hh
  obtain ⟨j, hj, hpx, hmax'⟩ := hx
  have he : i = j := UInt64.le_antisymm (hmax' i h hi hph) (hmax j x hj hpx)
  rw [he, hj] at hi
  exact (Option.some.inj hi).symm

theorem mem_descending {height : UInt64} :
    (height, h) ∈ w.descending ↔ w.hardened[height]? = some h := by
  rw [descending, List.mem_reverse, Std.ExtTreeMap.mem_toList_iff_getElem?_eq_some]

theorem pairwise_descending (w : Network) :
    w.descending.Pairwise fun p q ↦ q.1 < p.1 := by
  rw [descending, List.pairwise_reverse]
  exact w.hardened.ordered_keys_toList.imp fun hlt ↦ Std.compare_eq_lt.mp hlt

theorem descending_of_empty (he : w.hardened = ∅) : w.descending = [] := by
  rw [descending, he]
  rfl

theorem highest_of_find? {p : Hash → Bool} {q : UInt64 × Hash}
    (hf : (w.descending.find? fun q ↦ p q.2) = some q) : w.Highest (fun h ↦ p h = true) q.2 := by
  obtain ⟨hp, l, l', hl, hnone⟩ := List.find?_eq_some_iff_append.mp hf
  have hmem := List.mem_of_find?_eq_some hf
  refine ⟨q.1, mem_descending.mp hmem, hp, fun height x hx hpx ↦ ?_⟩
  have hpair := w.pairwise_descending
  have hm := mem_descending.mpr hx
  rw [hl] at hpair hm
  rcases List.mem_append.mp hm with hm | hm
  · have hn := hnone _ hm
    simp [hpx] at hn
  · rcases List.mem_cons.mp hm with he | hm
    · rw [← he]
      exact UInt64.le_refl _
    · have hlt := (List.pairwise_cons.mp (List.pairwise_append.mp hpair).2.1).1 _ hm
      exact UInt64.le_of_lt hlt

end ChainAnchor.Network
