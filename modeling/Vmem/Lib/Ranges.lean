import Vmem.Lib.OrdMap

/-!
# Disjoint ranges

Ranges of naturals that lie apart from each other fill at most the room they lie in.
-/

namespace Vmem.Ranges

/-- The numbers in some range of the list, counted: ranges that lie apart from each other share none. -/
theorem exists_covered (l : List (ℕ × ℕ)) (h : l.Pairwise fun p q => p.1 + p.2 ≤ q.1 ∨ q.1 + q.2 ≤ p.1) :
    ∃ s : Finset ℕ, s.card = (l.map Prod.snd).sum ∧ ∀ x, x ∈ s ↔ ∃ p ∈ l, p.1 ≤ x ∧ x < p.1 + p.2 := by
  induction l with
  | nil => exact ⟨∅, by simp⟩
  | cons p l ih =>
    rw [List.pairwise_cons] at h
    obtain ⟨s, hcard, hs⟩ := ih h.2
    have hdisj : Disjoint (Finset.Ico p.1 (p.1 + p.2)) s := by
      rw [Finset.disjoint_left]
      intro x hx hx'
      rw [Finset.mem_Ico] at hx
      obtain ⟨q, hq, hxq⟩ := (hs x).1 hx'
      rcases h.1 q hq with hpq | hpq <;> omega
    refine ⟨Finset.Ico p.1 (p.1 + p.2) ∪ s, ?_, fun x => ?_⟩
    · rw [Finset.card_union_of_disjoint hdisj, hcard, Nat.card_Ico, List.map_cons, List.sum_cons, Nat.add_sub_cancel_left]
    · simp [hs]

/-- Ranges apart from each other between `lo` and `hi` have a total length of at most `hi - lo`. -/
theorem sum_le (l : List (ℕ × ℕ)) (lo hi : ℕ) (h : l.Pairwise fun p q => p.1 + p.2 ≤ q.1 ∨ q.1 + q.2 ≤ p.1)
    (hin : ∀ p ∈ l, lo ≤ p.1 ∧ p.1 + p.2 ≤ hi) : (l.map Prod.snd).sum ≤ hi - lo := by
  obtain ⟨s, hcard, hs⟩ := exists_covered l h
  have hsub : s ⊆ Finset.Ico lo hi := by
    intro x hx
    obtain ⟨p, hp, hxp⟩ := (hs x).1 hx
    have := hin p hp
    rw [Finset.mem_Ico]
    omega
  calc (l.map Prod.snd).sum = s.card := hcard.symm
    _ ≤ (Finset.Ico lo hi).card := Finset.card_le_card hsub
    _ = hi - lo := Nat.card_Ico lo hi

variable {α β : Type*} [Ord α] [Std.TransOrd α] [Std.LawfulEqOrd α]

/-- The same for the ranges `[start k, start k + len v)` of the entries of a map. -/
theorem total_le (m : OrdMap α β) (start : α → ℕ) (len : β → ℕ) (lo hi : ℕ)
    (h : ∀ (k k' : α) (v v' : β), m[k]? = some v → m[k']? = some v' → k ≠ k' →
      start k + len v ≤ start k' ∨ start k' + len v' ≤ start k)
    (hin : ∀ (k : α) (v : β), m[k]? = some v → lo ≤ start k ∧ start k + len v ≤ hi) :
    OrdMap.total m (fun _ v => len v) ≤ hi - lo := by
  have hsum := sum_le (m.toList.map fun p => (start p.1, len p.2)) lo hi ?_ ?_
  · simpa [OrdMap.total, Function.comp_def] using hsum
  · rw [List.pairwise_map]
    refine List.Pairwise.imp_of_mem ?_ m.distinct_keys_toList
    rintro ⟨k, v⟩ ⟨k', v'⟩ hp hq hne
    refine h k k' v v' ?_ ?_ fun heq => hne (Std.compare_eq_iff_eq.2 heq)
    · exact Std.ExtTreeMap.mem_toList_iff_getElem?_eq_some.1 hp
    · exact Std.ExtTreeMap.mem_toList_iff_getElem?_eq_some.1 hq
  · intro p hp
    obtain ⟨⟨k, v⟩, hkv, rfl⟩ := List.mem_map.1 hp
    exact hin k v (Std.ExtTreeMap.mem_toList_iff_getElem?_eq_some.1 hkv)

end Vmem.Ranges
