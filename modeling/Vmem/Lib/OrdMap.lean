import Mathlib

/-!
# Ordered maps

Facts about `Std.ExtTreeMap` that programs over ordered maps rest on: the total of a function over the entries and how
`insert` and `erase` change it, and the entry at or below a key (what `upper_bound` followed by one step back finds). Two maps
with the same lookups are equal, so states that hold maps can be compared.
-/

namespace Vmem

/-- An ordered map over the comparison of its key type. -/
abbrev OrdMap (α β : Type*) [Ord α] := Std.ExtTreeMap α β compare

namespace OrdMap

open Std

/-! ## Machine words as keys and entries -/

instance : LawfulBEq (BitVec 64) := inferInstance
instance : TransOrd (BitVec 64) := inferInstance
instance : LawfulEqOrd (BitVec 64) := inferInstance
instance : TransOrd (BitVec 32) := inferInstance
instance : LawfulEqOrd (BitVec 32) := inferInstance

variable {α β : Type*} [Ord α] [TransOrd α] [LawfulEqOrd α]

/-! ## Lookups -/

/-- What is found after a write. -/
theorem getElem?_insert [DecidableEq α] (m : OrdMap α β) (k a : α) (v : β) :
    (m.insert k v)[a]? = if a = k then some v else m[a]? := by
  by_cases hk : a = k
  · subst hk; simp
  · simp [ExtTreeMap.getElem?_insert, hk, Ne.symm hk]

/-- What is found after a key is gone. -/
theorem getElem?_erase [DecidableEq α] (m : OrdMap α β) (k a : α) : (m.erase k)[a]? = if a = k then none else m[a]? := by
  by_cases hk : a = k
  · subst hk; simp
  · simp [ExtTreeMap.getElem?_erase, hk, Ne.symm hk]

/-- Writing back the value that is there changes nothing. -/
theorem insert_of_getElem? {m : OrdMap α β} {k : α} {v : β} (h : m[k]? = some v) : m.insert k v = m := by
  apply ExtTreeMap.ext_getElem?
  intro a
  by_cases hk : k = a
  · subst hk; simp [h]
  · simp [ExtTreeMap.getElem?_insert, hk]

/-- Erasing a key that is not there changes nothing. -/
theorem erase_of_getElem? {m : OrdMap α β} {k : α} (h : m[k]? = none) : m.erase k = m := by
  apply ExtTreeMap.ext_getElem?
  intro a
  by_cases hk : k = a
  · subst hk; simp [h]
  · simp [ExtTreeMap.getElem?_erase, hk]

/-- The later of two writes to one key stays. -/
theorem insert_insert (m : OrdMap α β) (k : α) (v w : β) : (m.insert k v).insert k w = m.insert k w := by
  apply ExtTreeMap.ext_getElem?
  intro a
  by_cases hk : k = a <;> simp [ExtTreeMap.getElem?_insert, hk]

/-- Writing a key and erasing it again leaves a map without the key as it was. -/
theorem erase_insert {m : OrdMap α β} {k : α} (v : β) (h : m[k]? = none) : (m.insert k v).erase k = m := by
  apply ExtTreeMap.ext_getElem?
  intro a
  by_cases hk : k = a
  · subst hk; simp [h]
  · simp [ExtTreeMap.getElem?_insert, ExtTreeMap.getElem?_erase, hk]

/-- Erasing a key after a write to it undoes the write. -/
theorem erase_insert_self (m : OrdMap α β) (k : α) (v : β) : (m.insert k v).erase k = m.erase k := by
  apply ExtTreeMap.ext_getElem?
  intro a
  by_cases hk : k = a <;> simp [ExtTreeMap.getElem?_insert, ExtTreeMap.getElem?_erase, hk]

/-- Erasing a key and writing it is the write. -/
theorem insert_erase (m : OrdMap α β) (k : α) (v : β) : (m.erase k).insert k v = m.insert k v := by
  apply ExtTreeMap.ext_getElem?
  intro a
  by_cases hk : k = a <;> simp [ExtTreeMap.getElem?_insert, ExtTreeMap.getElem?_erase, hk]

/-! ## The entry at or below a key -/

/-- Machine words are compared as the numbers they are. -/
theorem isLE_iff {n : Nat} (a b : BitVec n) : (compare a b).isLE = true ↔ a ≤ b := by
  show (compareOfLessAndEq a b).isLE = true ↔ _
  unfold compareOfLessAndEq
  split
  · have hlt : a < b := ‹_›
    simp [BitVec.le_of_lt hlt]
  · split
    · subst_vars
      simp
    · have hlt : ¬a < b := ‹_›
      have hne : ¬a = b := ‹_›
      have hnat : ¬a.toNat = b.toNat := fun heq => hne (BitVec.eq_of_toNat_eq heq)
      simp only [BitVec.lt_def] at hlt
      simp only [BitVec.le_def, Ordering.isLE, Bool.false_eq_true, false_iff]
      omega

/-- What every entry satisfies can be decided. -/
instance (priority := 2000) decidableForall {m : OrdMap α β} {P : α → β → Prop} [∀ k v, Decidable (P k v)] : Decidable (∀ k v, m[k]? = some v → P k v) :=
  decidable_of_iff (∀ x ∈ m.toList, P x.1 x.2) ⟨fun h k v hv => h (k, v) (ExtTreeMap.mem_toList_iff_getElem?_eq_some.2 hv),
    fun h x hx => h x.1 x.2 (ExtTreeMap.mem_toList_iff_getElem?_eq_some.1 hx)⟩

/-- What some entry satisfies can be decided. -/
instance (priority := 2000) decidableExists {m : OrdMap α β} {P : α → β → Prop} [∀ k v, Decidable (P k v)] : Decidable (∃ k v, m[k]? = some v ∧ P k v) :=
  decidable_of_iff (∃ x ∈ m.toList, P x.1 x.2)
    ⟨fun h => h.elim fun x hx => ⟨x.1, x.2, ExtTreeMap.mem_toList_iff_getElem?_eq_some.1 hx.1, hx.2⟩,
      fun h => h.elim fun k h => h.elim fun v hv => ⟨(k, v), ExtTreeMap.mem_toList_iff_getElem?_eq_some.2 hv.1, hv.2⟩⟩

/-- The least key. -/
def min? (m : OrdMap α β) : Option α := m.keys.head?

omit [LawfulEqOrd α] in
/-- Only the empty map has no least key. -/
theorem min?_eq_none_iff {m : OrdMap α β} : m.min? = none ↔ m = ∅ := by
  rw [min?, ← ExtTreeMap.minKey?_eq_head?_keys, ExtTreeMap.minKey?_eq_none_iff]

/-- The least key is in the map. -/
theorem mem_of_min? {m : OrdMap α β} {k : α} (h : m.min? = some k) : k ∈ m := by
  rw [min?, ← ExtTreeMap.minKey?_eq_head?_keys] at h
  exact (ExtTreeMap.minKey?_eq_some_iff_mem_and_forall.1 h).1

/-- The entry with the greatest key that is at most `k`. -/
def floor? (m : OrdMap α β) (k : α) : Option (α × β) := (m.toList.filter fun x => (compare x.1 k).isLE).getLast?

/-- The entry at or below a key is the last one that is not above it. -/
theorem floor?_eq_some_iff {m : OrdMap α β} {k a : α} {v : β} : floor? m k = some (a, v) ↔
    m[a]? = some v ∧ (compare a k).isLE = true ∧
      ∀ a' v', m[a']? = some v' → (compare a' k).isLE = true → (compare a' a).isLE = true := by
  have hmem (b : α) (w : β) : (b, w) ∈ (m.toList.filter fun x => (compare x.1 k).isLE) ↔ m[b]? = some w ∧ (compare b k).isLE = true := by
    rw [List.mem_filter, ExtTreeMap.mem_toList_iff_getElem?_eq_some]
  have hsorted : (m.toList.filter fun x => (compare x.1 k).isLE).Pairwise fun x y => compare x.1 y.1 = .lt :=
    ExtTreeMap.ordered_keys_toList.filter _
  -- every entry of a sorted list is at most its last one
  have hlast {b : α} {w : β} (h : floor? m k = some (b, w)) (a' : α) (v' : β) (ha' : m[a']? = some v') (hle : (compare a' k).isLE = true) :
      (compare a' b).isLE = true := by
    obtain ⟨l, hl⟩ := List.getLast?_eq_some_iff.1 h
    have hin := (hmem a' v').2 ⟨ha', hle⟩
    rw [hl] at hin hsorted
    rcases List.mem_append.1 hin with hin | hin
    · have hlt : compare a' b = .lt := (List.pairwise_append.1 hsorted).2.2 _ hin _ (List.mem_singleton_self _)
      rw [hlt]
      rfl
    · cases List.mem_singleton.1 hin
      exact ReflCmp.isLE_rfl
  constructor
  · intro h
    obtain ⟨hv, hle⟩ := (hmem a v).1 (List.mem_of_getLast? h)
    exact ⟨hv, hle, hlast h⟩
  · rintro ⟨hv, hle, hall⟩
    cases hf : floor? m k with
    | none =>
      rw [floor?, List.getLast?_eq_none_iff] at hf
      have hin := (hmem a v).2 ⟨hv, hle⟩
      rw [hf] at hin
      cases hin
    | some x =>
      obtain ⟨b, w⟩ := x
      obtain ⟨hw, hbk⟩ := (hmem b w).1 (List.mem_of_getLast? hf)
      obtain rfl : b = a := LawfulEqOrd.eq_of_compare (Std.OrientedCmp.isLE_antisymm (hall b w hw hbk) (hlast hf a v hv hle))
      rw [hv] at hw
      cases hw
      rfl

/-- There is no entry at or below a key exactly if every key is above it. -/
theorem floor?_eq_none_iff {m : OrdMap α β} {k : α} : floor? m k = none ↔ ∀ a v, m[a]? = some v → ¬(compare a k).isLE = true := by
  rw [floor?, List.getLast?_eq_none_iff, List.filter_eq_nil_iff]
  constructor
  · exact fun h a v hv => h (a, v) (ExtTreeMap.mem_toList_iff_getElem?_eq_some.2 hv)
  · exact fun h x hx => h x.1 x.2 (ExtTreeMap.mem_toList_iff_getElem?_eq_some.1 hx)

/-! ## Entries -/

/-- No entry is there twice. -/
theorem nodup_toList (m : OrdMap α β) : m.toList.Nodup := by
  refine m.distinct_keys_toList.imp ?_
  intro a b hab heq
  exact hab (compare_eq_iff_eq.2 (congrArg Prod.fst heq))

/-- The entries after a write: the new entry and the entries of the other keys. -/
theorem toList_insert_perm (m : OrdMap α β) (k : α) (v : β) :
    (m.insert k v).toList.Perm ((k, v) :: (m.erase k).toList) := by
  rw [List.perm_ext_iff_of_nodup (nodup_toList _)]
  · rintro ⟨a, b⟩
    by_cases hk : k = a
    · subst hk; simp [eq_comm]
    · simp [ExtTreeMap.getElem?_insert, ExtTreeMap.getElem?_erase, hk, Ne.symm hk]
  · exact List.nodup_cons.2 ⟨by simp, nodup_toList _⟩

/-- Lookups after writing a list of entries with distinct keys: an entry of the list, or of the map under another key. -/
theorem foldl_insert_eq_some (l : List (α × β)) (hl : (l.map Prod.fst).Nodup) (k : α) (v : β) :
    ∀ m : OrdMap α β, (l.foldl (fun m p => m.insert p.1 p.2) m)[k]? = some v ↔
      (k, v) ∈ l ∨ (m[k]? = some v ∧ k ∉ l.map Prod.fst) := by
  induction l with
  | nil => simp
  | cons p l ih =>
    intro m
    rw [List.map_cons, List.nodup_cons] at hl
    rw [List.foldl_cons, ih hl.2]
    by_cases hk : p.1 = k
    · subst hk
      have hmem : (p.1, v) ∉ l := fun h => hl.1 (List.mem_map.2 ⟨_, h, rfl⟩)
      have hp : (p.1, v) = p ↔ p.2 = v := by
        rcases p with ⟨a, b⟩
        simp [eq_comm]
      simp [hmem, hl.1, hp]
    · have hp : (k, v) ≠ p := fun h => hk (congrArg Prod.fst h).symm
      simp [ExtTreeMap.getElem?_insert, hk, hp, Ne.symm hk]

/-- No key is there twice. -/
theorem nodup_keys (m : OrdMap α β) : (m.toList.map Prod.fst).Nodup := by
  refine List.pairwise_map.2 (m.distinct_keys_toList.imp ?_)
  intro a b hab heq
  exact hab (compare_eq_iff_eq.2 heq)

/-- Writing the entries of a map, in any order, gives the map. -/
theorem foldl_insert_of_perm {m : OrdMap α β} {l : List (α × β)} (h : l.Perm m.toList) :
    l.foldl (fun m p => m.insert p.1 p.2) (∅ : OrdMap α β) = m := by
  have hl : (l.map Prod.fst).Nodup := by
    rw [(h.map Prod.fst).nodup_iff]
    exact nodup_keys m
  apply ExtTreeMap.ext_getElem?
  intro k
  ext v
  rw [foldl_insert_eq_some l hl k v, h.mem_iff]
  simp

/-! ## Totals -/

variable {M N : Type*} [AddCommMonoid M] [AddCommMonoid N]

/-- The sum of a function over the entries of a map. -/
def total (m : OrdMap α β) (f : α → β → M) : M := (m.toList.map fun p => f p.1 p.2).sum

omit [LawfulEqOrd α] in
/-- The empty map totals nothing. -/
@[simp] theorem total_empty (f : α → β → M) : total (∅ : OrdMap α β) f = 0 := by
  have h : (∅ : OrdMap α β).toList = [] := ExtTreeMap.toList_eq_nil_iff.2 rfl
  simp [total, h]

/-- The total after a write: the new entry's share and that of the other keys. -/
theorem total_insert (m : OrdMap α β) (k : α) (v : β) (f : α → β → M) :
    total (m.insert k v) f = f k v + total (m.erase k) f := by
  simpa [total] using ((toList_insert_perm m k v).map fun p => f p.1 p.2).sum_eq

/-- The total of a map that holds a key: the key's share and that of the other keys. -/
theorem total_of_getElem? {m : OrdMap α β} {k : α} {v : β} (h : m[k]? = some v) (f : α → β → M) :
    total m f = f k v + total (m.erase k) f := by
  conv_lhs => rw [← insert_of_getElem? h]
  exact total_insert m k v f

/-- The total after a write of a new key. -/
theorem total_insert_new {m : OrdMap α β} {k : α} (h : m[k]? = none) (v : β) (f : α → β → M) :
    total (m.insert k v) f = f k v + total m f := by
  rw [total_insert, erase_of_getElem? h]

/-- Totals agree when the functions do on every entry. -/
theorem total_congr {m : OrdMap α β} {f g : α → β → M} (h : ∀ k v, m[k]? = some v → f k v = g k v) :
    total m f = total m g := by
  unfold total
  congr 1
  apply List.map_congr_left
  rintro ⟨k, v⟩ hkv
  exact h k v (ExtTreeMap.mem_toList_iff_getElem?_eq_some.1 hkv)

omit [LawfulEqOrd α] in
/-- Totals add up. -/
theorem total_add (m : OrdMap α β) (f g : α → β → M) :
    total m (fun k v => f k v + g k v) = total m f + total m g := by
  simp [total, List.sum_map_add]

omit [LawfulEqOrd α] in
/-- The total over a map whose values were replaced. -/
theorem total_map {γ : Type*} (m : OrdMap α β) (h : α → β → γ) (f : α → γ → M) :
    total (m.map h) f = total m fun k v => f k (h k v) := by
  simp [total, ExtTreeMap.toList_map, Function.comp_def]

omit [LawfulEqOrd α] in
/-- An additive map commutes with the total. -/
theorem map_total (φ : M →+ N) (m : OrdMap α β) (f : α → β → M) :
    φ (total m f) = total m fun k v => φ (f k v) := by
  simp [total, map_list_sum, Function.comp_def]

/-- A total of naturals is at most another when each share is. -/
theorem total_le_total {m : OrdMap α β} {f g : α → β → ℕ} (h : ∀ k v, m[k]? = some v → f k v ≤ g k v) :
    total m f ≤ total m g := by
  apply List.sum_le_sum
  rintro ⟨k, v⟩ hkv
  exact h k v (ExtTreeMap.mem_toList_iff_getElem?_eq_some.1 hkv)

/-- A share of a total of naturals is at most the total. -/
theorem le_total {m : OrdMap α β} {k : α} {v : β} (h : m[k]? = some v) (f : α → β → ℕ) : f k v ≤ total m f := by
  rw [total_of_getElem? h]
  exact Nat.le_add_right _ _

section Embed

variable {γ δ : Type*} [Ord γ] [TransOrd γ] [LawfulEqOrd γ]

omit [Ord γ] [TransOrd γ] [LawfulEqOrd γ] in
/-- A total of naturals over a list of entries with distinct keys is at most the total over a map that holds, for each entry with
a share, an entry of its own with at least that share; `key` tells which entry it is for. -/
theorem sum_le_total_of_embed (l : List (γ × δ)) (hl : (l.map Prod.fst).Nodup) (f : γ → δ → ℕ) (g : α → β → ℕ)
    (key : α → β → γ) :
    ∀ m : OrdMap α β, (∀ p ∈ l, f p.1 p.2 ≠ 0 → ∃ k v, m[k]? = some v ∧ key k v = p.1 ∧ f p.1 p.2 ≤ g k v) →
      (l.map fun p => f p.1 p.2).sum ≤ total m g := by
  induction l with
  | nil => simp
  | cons p l ih =>
    intro m h
    rw [List.map_cons, List.nodup_cons] at hl
    rw [List.map_cons, List.sum_cons]
    have hrest : ∀ q ∈ l, f q.1 q.2 ≠ 0 → ∃ k v, m[k]? = some v ∧ key k v = q.1 ∧ f q.1 q.2 ≤ g k v :=
      fun q hq => h q (List.mem_cons_of_mem _ hq)
    by_cases hp : f p.1 p.2 = 0
    · rw [hp, zero_add]
      exact ih hl.2 m hrest
    · obtain ⟨k, v, hv, hkey, hle⟩ := h p List.mem_cons_self hp
      rw [total_of_getElem? hv]
      refine Nat.add_le_add hle (ih hl.2 _ fun q hq hq0 => ?_)
      obtain ⟨k', v', hv', hkey', hle'⟩ := hrest q hq hq0
      have hne : k ≠ k' := by
        rintro rfl
        rw [hv] at hv'
        cases hv'
        exact hl.1 (List.mem_map.2 ⟨q, hq, hkey'.symm.trans hkey⟩)
      exact ⟨k', v', by simp [ExtTreeMap.getElem?_erase, hne, hv'], hkey', hle'⟩

/-- A total of naturals is at most another when each entry with a share has an entry of its own, with at least that share, in the
other map. -/
theorem total_le_of_embed {m : OrdMap γ δ} {m' : OrdMap α β} {f : γ → δ → ℕ} {g : α → β → ℕ} (key : α → β → γ)
    (h : ∀ k v, m[k]? = some v → f k v ≠ 0 → ∃ k' v', m'[k']? = some v' ∧ key k' v' = k ∧ f k v ≤ g k' v') :
    total m f ≤ total m' g := by
  refine sum_le_total_of_embed m.toList (nodup_keys m) f g key m' ?_
  rintro ⟨k, v⟩ hkv
  exact h k v (ExtTreeMap.mem_toList_iff_getElem?_eq_some.1 hkv)

end Embed

end OrdMap

end Vmem
