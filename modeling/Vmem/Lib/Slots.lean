import Mathlib

/-!
# Slots

A row of slots with a bit for each busy one and a stack of the free ones, as a slab allocator keeps them. The stack holds every slot
that is not busy, once; taking the top and giving a slot back keep that.
-/

namespace Vmem.Slots

variable {w : Nat} {busy : List Bool} {free : List (BitVec w)} {i : BitVec w}

/-- The stack of a row in which every slot is free, the first slot on top. -/
def fresh (w n : Nat) : List (BitVec w) := (List.range n).map (BitVec.ofNat w)

/-- The stack holds every slot that is not busy, once. -/
structure Sound (busy : List Bool) (free : List (BitVec w)) : Prop where
  nodup : free.Nodup
  mem : ∀ i, i ∈ free ↔ busy[i.toNat]? = some false

/-- New slots are all free. -/
theorem sound_fresh {n : Nat} (hn : n < 2 ^ w) : Sound (List.replicate n false) (fresh w n) := by
  refine ⟨(List.nodup_map_iff_inj_on List.nodup_range).2 ?_, fun i => ?_⟩
  · intro a ha b hb hab
    rw [List.mem_range] at ha hb
    have h := congrArg BitVec.toNat hab
    rwa [BitVec.toNat_ofNat, BitVec.toNat_ofNat, Nat.mod_eq_of_lt (by omega), Nat.mod_eq_of_lt (by omega)] at h
  · simp only [fresh, List.mem_map, List.mem_range, List.getElem?_replicate, Option.ite_none_right_eq_some, and_true]
    constructor
    · rintro ⟨a, ha, rfl⟩
      rwa [BitVec.toNat_ofNat, Nat.mod_eq_of_lt (by omega)]
    · intro hi
      exact ⟨i.toNat, hi, by simp⟩

/-- There are none only if none were asked for. -/
theorem fresh_eq_nil {n : Nat} : fresh w n = [] ↔ n = 0 := by
  simp [fresh]

/-- The top of the stack becomes busy. -/
theorem Sound.take (h : Sound busy (i :: free)) : Sound (busy.set i.toNat true) free := by
  obtain ⟨hi, hnodup⟩ := List.nodup_cons.1 h.nodup
  refine ⟨hnodup, fun j => ?_⟩
  by_cases hj : i = j
  · subst hj
    simp [hi, List.getElem?_set]
  · have hne : i.toNat ≠ j.toNat := fun heq => hj (BitVec.eq_of_toNat_eq heq)
    have hmem := h.mem j
    rw [List.mem_cons] at hmem
    rw [List.getElem?_set_ne hne, ← hmem]
    simp [Ne.symm hj]

/-- The slot on top of the stack is free. -/
theorem Sound.top (h : Sound busy (i :: free)) : busy[i.toNat]? = some false := (h.mem i).1 List.mem_cons_self

/-- A busy slot is put back on the stack. -/
theorem Sound.give (h : Sound busy free) (hi : busy[i.toNat]? = some true) : Sound (busy.set i.toNat false) (i :: free) := by
  have hlt : i.toNat < busy.length := (List.getElem?_eq_some_iff.1 hi).1
  have hnot : i ∉ free := by
    rw [h.mem, hi]
    simp
  refine ⟨List.nodup_cons.2 ⟨hnot, h.nodup⟩, fun j => ?_⟩
  by_cases hj : i = j
  · subst hj
    simp [hlt]
  · have hne : i.toNat ≠ j.toNat := fun heq => hj (BitVec.eq_of_toNat_eq heq)
    rw [List.getElem?_set_ne hne, ← h.mem j, List.mem_cons]
    simp [Ne.symm hj]

/-! ## The number of busy slots -/

/-- Taking a slot makes one more busy. -/
theorem count_take {j : Nat} (h : busy[j]? = some false) : (busy.set j true).count true = busy.count true + 1 := by
  obtain ⟨hlt, hj⟩ := List.getElem?_eq_some_iff.1 h
  rw [List.count_set hlt]
  simp [hj]

/-- Giving it back makes one less. -/
theorem count_give {j : Nat} (h : busy[j]? = some true) : (busy.set j false).count true + 1 = busy.count true := by
  obtain ⟨hlt, hj⟩ := List.getElem?_eq_some_iff.1 h
  have hpos : 0 < busy.count true := List.count_pos_iff.2 (hj ▸ List.getElem_mem hlt)
  rw [List.count_set hlt]
  simp [hj]
  omega

/-- No slot is busy when none is marked. -/
theorem count_eq_zero_iff : busy.count true = 0 ↔ ∀ j : Nat, busy[j]? ≠ some true := by
  rw [List.count_eq_zero]
  constructor
  · intro h j hj
    exact h (List.mem_of_getElem? hj)
  · intro h hmem
    obtain ⟨j, hj⟩ := List.getElem?_of_mem hmem
    exact h j hj

end Vmem.Slots
