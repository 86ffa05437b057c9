import Vmem.Lemmas.ChunkRow
import Vmem.Lib.Words

/-!
# Operations of the vector

What each operation of a vector does to a vector that is in order, up to the loops of `reserve` and `resize`.
-/

namespace Vmem

namespace VectorAux

open VMMVector Throwing

variable {T : ElemType} {v v' : VMMVector} {d : Cuda Memory} {xs : List T.Value}

/-- How many chunks the reservation has room for. -/
def rooms (v : VMMVector) : Nat := v.maxCapacity.toNat / v.chunkFits.toNat

/-- A vector that is in order, over a row of chunks that holds the elements. -/
structure Sound (T : ElemType) (v : VMMVector) (d : Cuda Memory) (xs : List T.Value) : Prop where
  row : d.Row v.dPtr v.chunkSize (rooms v) v.handles
  fits : v.chunkFits.toNat * T.sizeof.toNat = v.chunkSize.toNat
  max : v.maxCapacity.toNat = rooms v * v.chunkFits.toNat
  capacity : v.capacity.toNat = v.handles.length * v.chunkFits.toNat
  size : v.size.toNat = xs.length
  size_le : v.size.toNat ≤ v.capacity.toNat
  holds : d.Holds v.dPtr (xs.flatMap ElemType.Value.bytes)

/-- What no operation but `set_retain_last` changes. -/
structure Frame (v v' : VMMVector) : Prop where
  dPtr : v'.dPtr = v.dPtr
  maxCapacity : v'.maxCapacity = v.maxCapacity
  chunkSize : v'.chunkSize = v.chunkSize
  chunkFits : v'.chunkFits = v.chunkFits
  retainLast : v'.retainLast = v.retainLast

/-- Doing nothing changes nothing. -/
theorem Frame.refl (v : VMMVector) : Frame v v := ⟨rfl, rfl, rfl, rfl, rfl⟩

/-- What two steps leave alone, both together leave alone. -/
theorem Frame.trans {v'' : VMMVector} (h : Frame v v') (h' : Frame v' v'') : Frame v v'' :=
  ⟨h'.dPtr.trans h.dPtr, h'.maxCapacity.trans h.maxCapacity, h'.chunkSize.trans h.chunkSize, h'.chunkFits.trans h.chunkFits,
    h'.retainLast.trans h.retainLast⟩

/-- The number of chunks that there is room for stays. -/
theorem Frame.rooms (h : Frame v v') : rooms v' = rooms v := by
  unfold VectorAux.rooms
  rw [h.maxCapacity, h.chunkFits]

/-- What is retained stays. -/
theorem Frame.retains (h : Frame v v') (hv : v.Retains) : v'.Retains := by
  unfold Retains keeps at hv ⊢
  rw [h.retainLast, h.chunkFits]
  exact hv

/-! ## Numbers -/

/-- A chunk holds at least one element. -/
theorem fits_pos (h : Sound T v d xs) : 0 < v.chunkFits.toNat := by
  have hchunk := RowAux.chunk_pos h.row
  rw [← h.fits] at hchunk
  exact Nat.pos_of_mul_pos_right hchunk

/-- There is room for all chunks in the range. -/
theorem capacity_le (h : Sound T v d xs) : v.capacity.toNat ≤ v.maxCapacity.toNat := by
  rw [h.capacity, h.max]
  exact Nat.mul_le_mul_right _ h.row.le

/-- So many elements of so many chunks, in bytes. -/
theorem bytes_of_chunks (h : Sound T v d xs) (n : Nat) : n * v.chunkFits.toNat * T.sizeof.toNat = n * v.chunkSize.toNat := by
  rw [Nat.mul_assoc, h.fits]

/-- The bytes of the elements, counted. -/
theorem length_flatMap (xs : List T.Value) : (xs.flatMap ElemType.Value.bytes).length = xs.length * T.sizeof.toNat := by
  induction xs with
  | nil => exact (Nat.zero_mul _).symm
  | cons x xs ih =>
    rw [List.flatMap_cons, List.length_append, ih, x.length, List.length_cons]
    ring

/-- The address of an element. -/
theorem toNat_addr (h : Sound T v d xs) {n : Size} (hn : n.toNat ≤ v.maxCapacity.toNat) :
    (v.dPtr + n * T.sizeof).toNat = v.dPtr.toNat + n.toNat * T.sizeof.toNat := by
  have hfits := h.row.fits
  have hle : n.toNat * T.sizeof.toNat ≤ rooms v * v.chunkSize.toNat := by
    rw [← bytes_of_chunks h, ← h.max]
    exact Nat.mul_le_mul_right _ hn
  rw [BitVec.toNat_add, BitVec.toNat_mul, Nat.mod_eq_of_lt (by omega : n.toNat * T.sizeof.toNat < 2 ^ 64), Nat.mod_eq_of_lt (by omega)]

/-! ## Growth -/

/-- One chunk more behind the row. -/
theorem sound_grow {k : Handle} {p : Phys Memory} {ptr : Ptr} {d' : Cuda Memory} (h : Sound T v d xs) (hlt : v.handles.length < rooms v)
    (hptr : ptr.toNat = v.dPtr.toNat + v.handles.length * v.chunkSize.toNat) (hnew : d.handles[k]? = none) (hsize : p.size = v.chunkSize)
    (hres : d'.reservations = d.reservations) (hhandles : d'.handles = d.handles.insert k p)
    (hmap : d'.mappings = d.mappings.insert ptr ⟨v.chunkSize, k, true⟩) :
    Sound T { v with handles := v.handles ++ [k], capacity := v.capacity + v.chunkFits } d' xs := by
  have hrow := RowAux.row_grow h.row hlt hptr hnew hsize hres hhandles hmap
  have hcap : (v.capacity + v.chunkFits).toNat = (v.handles.length + 1) * v.chunkFits.toNat := by
    have hle : (v.handles.length + 1) * v.chunkFits.toNat ≤ rooms v * v.chunkFits.toNat := Nat.mul_le_mul_right _ hlt
    have hmax := h.max
    rw [Nat.add_mul, Nat.one_mul] at hle ⊢
    rw [BitVec.toNat_add, h.capacity]
    exact Nat.mod_eq_of_lt (by omega)
  refine ⟨hrow, h.fits, h.max, ?_, h.size, ?_, ?_⟩
  · rw [hcap, List.length_append, List.length_singleton]
  · have hle := h.size_le
    rw [h.capacity] at hle
    show v.size.toNat ≤ (v.capacity + v.chunkFits).toNat
    rw [hcap, Nat.add_mul]
    omega
  · refine RowAux.holds_shared h.row hrow (fun i k' _ hk' => ⟨?_, ?_⟩) ?_ h.holds
    · obtain ⟨hi, -⟩ := List.getElem?_eq_some_iff.1 hk'
      rw [List.getElem?_append_left hi, hk']
    · rw [hhandles, OrdMap.getElem?_insert, if_neg]
      rintro rfl
      obtain ⟨q, hq, -⟩ := h.row.alive _ (List.mem_of_getElem? hk')
      rw [hnew] at hq
      cases hq
    · rw [length_flatMap, ← h.size, ← bytes_of_chunks h, ← h.capacity]
      exact Nat.mul_le_mul_right _ h.size_le

/-- The loop of `reserve` adds so many chunks. -/
theorem addChunks_wp {E : VecError → VMMVector → Cuda Memory → Prop} (n : Nat) : ∀ {v : VMMVector} {d : Cuda Memory} {ptr : Ptr},
    Sound T v d xs → v.handles.length + n ≤ rooms v → ptr.toNat = v.dPtr.toNat + v.handles.length * v.chunkSize.toNat →
    wp Cuda.checked (addChunks n ptr) (fun _ v' d' => Sound T v' d' xs ∧ v'.handles.length = v.handles.length + n ∧ v'.size = v.size ∧ Frame v v')
      E v d := by
  induction n with
  | zero => exact fun h _ _ => ⟨h, rfl, rfl, .refl _⟩
  | succ n ih =>
    intro v d ptr h hle hptr
    have hlt : v.handles.length < rooms v := by omega
    unfold addChunks pushChunk mapChunk setAccess cu
    simp only [wp_bind, wp_get, wp_call, wp_modify, wp_pure]
    have hcreate : d.Accepts (.create v.chunkSize v.props) := h.row.chunk_ne
    refine ⟨hcreate, fun k d₁ hd₁ => ?_⟩
    obtain ⟨-, hnew, x, rfl⟩ := hd₁
    have hnew : d.handles[k]? = none := hnew
    have hrow₁ : (d.after (.create v.chunkSize v.props) k x).Row v.dPtr v.chunkSize (rooms v) v.handles := by
      refine RowAux.row_congr h.row rfl rfl fun k' p hp => ⟨p, ?_, rfl⟩
      show (d.handles.insert k _)[k']? = some p
      rw [OrdMap.getElem?_insert, if_neg, hp]
      rintro rfl
      rw [hnew] at hp
      cases hp
    have hmap : (d.after (.create v.chunkSize v.props) k x).Accepts (.map ptr v.chunkSize k) := by
      refine RowAux.accepts_map (p := ⟨v.chunkSize, v.loc, x⟩) hrow₁ hlt hptr ?_ rfl
      show (d.handles.insert k _)[k]? = _
      rw [OrdMap.getElem?_insert, if_pos rfl]
      rfl
    refine ⟨hmap, fun _ d₂ hd₂ => ?_⟩
    obtain ⟨-, -, y, rfl⟩ := hd₂
    have hmapped : (d.mappings.insert ptr ⟨v.chunkSize, k, false⟩)[ptr]? = some ⟨v.chunkSize, k, false⟩ := by
      rw [OrdMap.getElem?_insert, if_pos rfl]
    refine ⟨⟨⟨v.chunkSize, k, false⟩, hmapped, rfl⟩, fun _ d₃ hd₃ => ?_⟩
    obtain ⟨-, rfl⟩ := hd₃
    have hafter : ((d.after (.create v.chunkSize v.props) k x).after (.map ptr v.chunkSize k) 0 y).after (.setAccess ptr v.chunkSize 0) 0 0 =
        { d with handles := d.handles.insert k ⟨v.chunkSize, v.loc, x⟩, mappings := d.mappings.insert ptr ⟨v.chunkSize, k, true⟩ } := by
      simp only [Cuda.after, hmapped]
      show { d with handles := _, mappings := (d.mappings.insert ptr ⟨v.chunkSize, k, false⟩).insert ptr ⟨v.chunkSize, k, true⟩ } = _
      rw [OrdMap.insert_insert]
      rfl
    have hsound : Sound T { v with handles := v.handles ++ [k], capacity := v.capacity + v.chunkFits } { d with
        handles := d.handles.insert k ⟨v.chunkSize, v.loc, x⟩, mappings := d.mappings.insert ptr ⟨v.chunkSize, k, true⟩ } xs :=
      sound_grow (p := ⟨v.chunkSize, v.loc, x⟩) h hlt hptr hnew rfl rfl rfl rfl
    have hlen : (v.handles ++ [k]).length = v.handles.length + 1 := by simp
    have hnext : (ptr + v.chunkSize).toNat = v.dPtr.toNat + (v.handles ++ [k]).length * v.chunkSize.toNat := by
      have hfits := h.row.fits
      have hroom : (v.handles.length + 1) * v.chunkSize.toNat ≤ rooms v * v.chunkSize.toNat := Nat.mul_le_mul_right _ hlt
      rw [Nat.add_mul, Nat.one_mul] at hroom
      rw [hlen, Nat.add_mul, Nat.one_mul, BitVec.toNat_add, hptr, Nat.mod_eq_of_lt (by omega)]
      omega
    refine wp_mono (hafter ▸ ih hsound (by rw [hlen]; exact (by omega : v.handles.length + 1 + n ≤ rooms v)) hnext) ?_ fun _ _ _ h => h
    rintro _ v' d' ⟨hsound', hlen', hsize, hframe⟩
    refine ⟨hsound', ?_, hsize, ⟨hframe.dPtr, hframe.maxCapacity, hframe.chunkSize, hframe.chunkFits, hframe.retainLast⟩⟩
    rw [hlen', hlen]
    omega

/-- `reserve` makes room, or throws when there is not enough of it. -/
theorem reserve_wp (h : Sound T v d xs) {n : Size} (hround : v.capacity < n → v.Rounds n.toNat) :
    wp Cuda.checked (reserve T n)
      (fun _ v' d' => n ≤ v.maxCapacity ∧ Sound T v' d' xs ∧ n ≤ v'.capacity ∧ v.capacity ≤ v'.capacity ∧ Frame v v')
      (fun _ v' d' => v.maxCapacity < n ∧ v' = v ∧ d' = d) v d := by
  unfold reserve
  rw [wp_bind, wp_get, wp_ite]
  refine ⟨fun hle => ?_, fun hgt => ?_⟩
  · have hcap := capacity_le h
    exact ⟨by bv_omega, h, hle, BitVec.le_refl _, .refl _⟩
  · have hpos := fits_pos h
    have hlt : v.capacity < n := by bv_omega
    have hnat : v.capacity.toNat < n.toNat := by bv_omega
    have hne : v.chunkFits ≠ 0 := by
      rintro h0
      rw [h0] at hpos
      exact absurd hpos (by decide)
    have hup : (roundUp n v.chunkFits).toNat = n.toNat ⌈/⌉ v.chunkFits.toNat * v.chunkFits.toNat :=
      Words.toNat_roundUp hne (hround hlt)
    have hiff : v.maxCapacity < roundUp n v.chunkFits ↔ v.maxCapacity < n := by
      rw [BitVec.lt_def, BitVec.lt_def, hup, h.max, Nat.mul_lt_mul_right hpos, ← Nat.not_le, ceilDiv_le_iff_le_mul hpos, Nat.not_le, Nat.mul_comm]
    dsimp only
    rw [wp_ite]
    refine ⟨fun hmax => ⟨hiff.1 hmax, rfl, rfl⟩, fun hmax => ?_⟩
    have hle : n.toNat ≤ v.maxCapacity.toNat := by
      have := mt hiff.2 hmax
      bv_omega
    have hchunks : n.toNat ⌈/⌉ v.chunkFits.toNat ≤ rooms v := by
      rw [ceilDiv_le_iff_le_mul hpos, Nat.mul_comm, ← h.max]
      exact hle
    have hmore : v.handles.length ≤ n.toNat ⌈/⌉ v.chunkFits.toNat := by
      by_contra hlt
      have hle := (ceilDiv_le_iff_le_mul hpos).1 (Nat.le_of_not_le hlt)
      rw [Nat.mul_comm, ← h.capacity] at hle
      omega
    have hextra : (roundUp n v.chunkFits / v.chunkFits - v.capacity / v.chunkFits).toNat =
        n.toNat ⌈/⌉ v.chunkFits.toNat - v.handles.length := by
      have hnew : (roundUp n v.chunkFits / v.chunkFits).toNat = n.toNat ⌈/⌉ v.chunkFits.toNat := by
        rw [BitVec.toNat_udiv, hup, Nat.mul_div_cancel _ hpos]
      have hold : (v.capacity / v.chunkFits).toNat = v.handles.length := by
        rw [BitVec.toNat_udiv, h.capacity, Nat.mul_div_cancel _ hpos]
      rw [BitVec.toNat_sub_of_le (by rw [BitVec.le_def, hnew, hold]; exact hmore), hnew, hold]
    have hptr : (v.dPtr + v.capacity * T.sizeof).toNat = v.dPtr.toNat + v.handles.length * v.chunkSize.toNat := by
      rw [toNat_addr h (capacity_le h), h.capacity, bytes_of_chunks h]
    rw [hextra]
    refine wp_mono (addChunks_wp _ h (by omega) hptr) ?_ fun _ _ _ h => h
    intro _ v' d' ⟨hsound, hlen, hsize, hframe⟩
    have hcap : v'.capacity.toNat = n.toNat ⌈/⌉ v.chunkFits.toNat * v.chunkFits.toNat := by
      rw [hsound.capacity, hlen, hframe.chunkFits, Nat.add_sub_cancel' hmore]
    have henough : n.toNat ≤ v'.capacity.toNat := by
      rw [hcap, Nat.mul_comm]
      exact (ceilDiv_le_iff_le_mul hpos).1 le_rfl
    exact ⟨hle, hsound, henough, BitVec.le_def.2 (by omega), hframe⟩

/-! ## One element -/

/-- The size that a full vector grows to does not wrap. -/
theorem toNat_doubled (h : v.doubled < 2 ^ 64) : (if 1 < v.size then v.size * 2 else 2 : Size).toNat = v.doubled := by
  have hone : (1 : Size) < v.size ↔ 1 < v.size.toNat := BitVec.lt_def
  unfold doubled at h ⊢
  by_cases hsize : 1 < v.size.toNat
  · rw [if_pos hsize] at h ⊢
    rw [if_pos (hone.2 hsize), BitVec.toNat_mul, Nat.mul_comm]
    exact Nat.mod_eq_of_lt h
  · rw [if_neg hsize, if_neg (mt hone.1 hsize)]
    rfl

/-- `push_back` appends, or throws when the vector is at its end. -/
theorem pushBack_wp (h : Sound T v d xs) {value : T.Value} (hfits : v.Fits (.pushBack value)) :
    wp Cuda.checked (pushBack T value)
      (fun _ v' d' => v.size ≠ v.maxCapacity ∧ Sound T v' d' (xs ++ [value]) ∧ v.capacity ≤ v'.capacity ∧ Frame v v')
      (fun _ v' d' => v.size = v.maxCapacity ∧ v' = v ∧ d' = d) v d := by
  -- the vector has room behind its elements
  have hwrite {v' : VMMVector} {d' : Cuda Memory} (h' : Sound T v' d' xs) (hroom : v'.size.toNat < v'.capacity.toNat) :
      wp Cuda.checked (do
        let v ← get
        Throwing.call (VecCall.memcpyHtoD (v.dPtr + v.size * T.sizeof) value.bytes)
        modify fun v => { v with size := v.size + 1 } : VecM Unit)
        (fun _ v'' d'' => Sound T v'' d'' (xs ++ [value]) ∧ v'.capacity ≤ v''.capacity ∧ Frame v' v'')
        (fun _ v' d' => v.size = v.maxCapacity ∧ v' = v ∧ d' = d) v' d' := by
    have hcap := capacity_le h'
    have haddr := toNat_addr h' (n := v'.size) (by omega)
    have hlen : (xs.flatMap ElemType.Value.bytes).length = v'.size.toNat * T.sizeof.toNat := by rw [length_flatMap, h'.size]
    have hbytes : v'.size.toNat * T.sizeof.toNat + value.bytes.length ≤ v'.handles.length * v'.chunkSize.toNat := by
      rw [value.length, ← bytes_of_chunks h', ← h'.capacity, ← Nat.succ_mul]
      exact Nat.mul_le_mul_right _ hroom
    simp only [wp_bind, wp_get, wp_call, wp_modify]
    refine ⟨RowAux.bytes_row h'.row hbytes haddr, fun _ d'' hd'' => ?_⟩
    obtain ⟨-, rfl⟩ := hd''
    have hnext : (v'.size + 1).toNat = v'.size.toNat + 1 := RowAux.toNat_next rfl (by omega)
    refine ⟨⟨RowAux.row_setBytes _ h'.row hbytes haddr, h'.fits, h'.max, h'.capacity, ?_, ?_, ?_⟩, BitVec.le_refl _,
      ⟨rfl, rfl, rfl, rfl, rfl⟩⟩
    · rw [hnext, h'.size, List.length_append, List.length_singleton]
    · rw [hnext]
      exact hroom
    · rw [List.flatMap_append, List.flatMap_singleton]
      exact RowAux.holds_append h'.row h'.holds (by rw [hlen]; exact hbytes) (by rw [hlen]; exact haddr)
  unfold pushBack
  rw [wp_bind, wp_get, wp_bind, wp_ite]
  have hcap := capacity_le h
  refine ⟨fun hfull => ?_, fun hroom => ?_⟩
  · obtain ⟨hround, hgrow⟩ := hfits hfull
    have hpos := fits_pos h
    have hdouble : v.size.toNat < v.doubled := by
      unfold doubled
      split
      · omega
      · omega
    have hlt : v.doubled < 2 ^ 64 := by
      unfold Rounds at hround
      omega
    have hn := toNat_doubled hlt
    refine wp_mono (reserve_wp h (n := if 1 < v.size then v.size * 2 else 2) fun _ => by rw [hn]; exact hround) ?_ ?_
    · rintro _ v' d' ⟨hmax, hsound, hn', hmono, hframe⟩
      rw [BitVec.le_def, hn] at hmax hn'
      have hsize : v'.size.toNat = v.size.toNat := by rw [hsound.size, h.size]
      refine wp_mono (hwrite hsound (by omega)) ?_ fun _ _ _ h => h
      rintro _ v'' d'' ⟨hsound', hmono', hframe'⟩
      refine ⟨fun heq => ?_, hsound', BitVec.le_trans hmono hmono', hframe.trans hframe'⟩
      rw [heq] at hdouble
      omega
    · rintro _ v' d' ⟨hmax, hv, hd⟩
      rw [BitVec.lt_def, hn] at hmax
      exact ⟨hgrow.resolve_right (by omega), hv, hd⟩
  · have hlt : v.size.toNat < v.capacity.toNat := lt_of_le_of_ne h.size_le fun heq => hroom (BitVec.eq_of_toNat_eq heq)
    rw [wp_pure]
    refine wp_mono (hwrite h hlt) ?_ fun _ _ _ h => h
    rintro _ v' d' ⟨hsound, hmono, hframe⟩
    refine ⟨fun heq => ?_, hsound, hmono, hframe⟩
    rw [heq] at hlt
    omega

/-- The last chunk goes when no element is in it. -/
theorem sound_shrink {k : Handle} {hs : List Handle} {ptr : Ptr} {d' : Cuda Memory} (h : Sound T v d xs) (hhs : v.handles = hs ++ [k])
    (hspare : v.size.toNat + v.chunkFits.toNat ≤ v.capacity.toNat) (hptr : ptr.toNat = v.dPtr.toNat + hs.length * v.chunkSize.toNat)
    (hres : d'.reservations = d.reservations) (hhandles : d'.handles = d.handles.erase k) (hmap : d'.mappings = d.mappings.erase ptr) :
    Sound T { v with handles := hs, capacity := v.capacity - v.chunkFits } d' xs := by
  have hrow := h.row
  rw [hhs] at hrow
  have hrow' := RowAux.row_shrink hrow hptr hres hhandles hmap
  have hcap := h.capacity
  rw [hhs, List.length_append, List.length_singleton, Nat.add_mul, Nat.one_mul] at hcap
  have hsub : (v.capacity - v.chunkFits).toNat = hs.length * v.chunkFits.toNat := by
    rw [BitVec.toNat_sub_of_le (BitVec.le_def.2 (by omega))]
    omega
  have hlen : (xs.flatMap ElemType.Value.bytes).length ≤ hs.length * v.chunkSize.toNat := by
    rw [length_flatMap, ← h.size, ← bytes_of_chunks h]
    exact Nat.mul_le_mul_right _ (by omega)
  refine ⟨hrow', h.fits, h.max, hsub, h.size, ?_, ?_⟩
  · show v.size.toNat ≤ (v.capacity - v.chunkFits).toNat
    omega
  · refine RowAux.holds_shared hrow hrow' (fun i k' hi hk' => ?_) ?_ h.holds
    · have hlt : i < hs.length := by
        by_contra hge
        have := Nat.mul_le_mul_right v.chunkSize.toNat (Nat.le_of_not_lt hge)
        omega
      rw [List.getElem?_append_left hlt] at hk'
      refine ⟨hk', ?_⟩
      obtain ⟨-, -, hnot⟩ := List.nodup_append.1 hrow.nodup
      rw [hhandles, OrdMap.getElem?_erase, if_neg (hnot k' (List.mem_of_getElem? hk') k List.mem_cons_self)]
    · refine hlen.trans (Nat.mul_le_mul_right _ ?_)
      rw [List.length_append]
      exact Nat.le_add_right _ _

/-- `pop_back` drops the last element. -/
theorem popBack_wp {E : VecError → VMMVector → Cuda Memory → Prop} (h : Sound T v d xs) (hretains : v.size ≠ 0 → v.Retains) :
    wp Cuda.checked (popBack T) (fun _ v' d' => Sound T v' d' xs.dropLast ∧ Frame v v') E v d := by
  unfold popBack
  rw [wp_bind, wp_get, wp_ite]
  refine ⟨fun hzero => ?_, fun hne => ?_⟩
  · have hnil : xs = [] := List.eq_nil_of_length_eq_zero (by rw [← h.size, hzero]; rfl)
    exact ⟨by rwa [hnil] at h ⊢, .refl _⟩
  · have hpos : 0 < v.size.toNat := Nat.pos_of_ne_zero fun h0 => hne (BitVec.eq_of_toNat_eq h0)
    have hsub : (v.size - 1).toNat = v.size.toNat - 1 := BitVec.toNat_sub_of_le (BitVec.le_def.2 hpos)
    have hle := h.size_le
    have hsound : Sound T { v with size := v.size - 1 } d xs.dropLast := by
      refine ⟨h.row, h.fits, h.max, h.capacity, ?_, ?_, ?_⟩
      · rw [List.length_dropLast, ← h.size]
        exact hsub
      · show (v.size - 1).toNat ≤ v.capacity.toNat
        omega
      · have hxs : xs ≠ [] := by
          rintro rfl
          exact absurd h.size hpos.ne'
        have hholds := h.holds
        rw [← List.dropLast_append_getLast hxs, List.flatMap_append] at hholds
        exact RowAux.holds_prefix hholds
    rw [wp_bind, wp_modify, wp_bind, wp_get]
    dsimp only
    rw [wp_ite]
    refine ⟨fun _ => ⟨hsound, ⟨rfl, rfl, rfl, rfl, rfl⟩⟩, fun hsome => ?_⟩
    rw [wp_ite]
    refine ⟨fun hkeeps => ?_, fun _ => ⟨hsound, ⟨rfl, rfl, rfl, rfl, rfl⟩⟩⟩
    obtain ⟨-, hfits⟩ := (hretains hne).resolve_left hsome
    have hspare : (v.size - 1).toNat + v.chunkFits.toNat ≤ v.capacity.toNat := by
      have hkeeps : v.keeps ≤ v.capacity - (v.size - 1) := hkeeps
      have hroom := BitVec.le_def.1 (BitVec.le_trans hfits hkeeps)
      rw [BitVec.toNat_sub_of_le (BitVec.le_def.2 (by omega))] at hroom
      omega
    have hfpos := fits_pos h
    -- the last chunk is there
    obtain ⟨hs, k, hhs⟩ : ∃ hs k, v.handles = hs ++ [k] := by
      rcases List.eq_nil_or_concat v.handles with hnil | ⟨hs, k, hcons⟩
      · have hcap := h.capacity
        rw [hnil, List.length_nil, Nat.zero_mul] at hcap
        omega
      · exact ⟨hs, k, by rw [hcons, List.concat_eq_append]⟩
    have hcap := h.capacity
    rw [hhs, List.length_append, List.length_singleton, Nat.add_mul, Nat.one_mul] at hcap
    have hlast : (v.capacity - v.chunkFits).toNat = hs.length * v.chunkFits.toNat := by
      rw [BitVec.toNat_sub_of_le (BitVec.le_def.2 (by omega))]
      omega
    have hmax := capacity_le h
    have hptr : (v.dPtr + (v.capacity - v.chunkFits) * T.sizeof).toNat = v.dPtr.toNat + hs.length * v.chunkSize.toNat := by
      rw [toNat_addr h (by omega), hlast, bytes_of_chunks h]
    have hrow := h.row
    rw [hhs] at hrow
    unfold unmapChunk popChunk cu
    simp only [wp_bind, wp_get, wp_call, wp_modify, wp_pure]
    refine ⟨RowAux.accepts_unmap hrow hptr, fun _ d₁ hd₁ => ?_⟩
    obtain ⟨-, -, x, rfl⟩ := hd₁
    have hback : v.handles.getLastD 0 = k := by rw [hhs]; simp
    rw [hback]
    obtain ⟨p, hp, -⟩ := hrow.alive k (by simp)
    refine ⟨⟨p, hp⟩, fun _ d₂ hd₂ => ?_⟩
    obtain ⟨-, -, y, rfl⟩ := hd₂
    have hdrop : v.handles.dropLast = hs := by rw [hhs]; simp
    rw [hdrop]
    exact ⟨sound_shrink hsound hhs hspare hptr rfl rfl rfl, ⟨rfl, rfl, rfl, rfl, rfl⟩⟩

/-! ## Many elements -/

/-- Popping some elements leaves those before them. -/
theorem popTimes_wp {E : VecError → VMMVector → Cuda Memory → Prop} (n : Nat) : ∀ {v : VMMVector} {d : Cuda Memory} {xs : List T.Value},
    Sound T v d xs → (n ≠ 0 → v.Retains) →
    wp Cuda.checked (popTimes T n) (fun _ v' d' => Sound T v' d' (xs.take (xs.length - n)) ∧ Frame v v') E v d := by
  induction n with
  | zero =>
    intro v d xs h _
    refine ⟨?_, .refl v⟩
    rwa [Nat.sub_zero, List.take_length]
  | succ n ih =>
    intro v d xs h hretains
    unfold popTimes
    rw [wp_bind]
    refine wp_mono (popBack_wp h fun _ => hretains (Nat.succ_ne_zero n)) ?_ fun _ _ _ h => h
    intro _ v' d' ⟨hsound, hframe⟩
    refine wp_mono (ih hsound fun _ => hframe.retains (hretains (Nat.succ_ne_zero n))) ?_ fun _ _ _ h => h
    intro _ v'' d'' ⟨hsound', hframe'⟩
    refine ⟨?_, hframe.trans hframe'⟩
    rw [List.dropLast_eq_take, List.length_take, List.take_take] at hsound'
    rwa [show min (min (xs.length - 1) xs.length - n) (xs.length - 1) = xs.length - (n + 1) by omega] at hsound'

/-- The vector has room for all of them. -/
theorem pushTimes_wp {E : VecError → VMMVector → Cuda Memory → Prop} {value : T.Value} (n : Nat) :
    ∀ {v : VMMVector} {d : Cuda Memory} {xs : List T.Value}, Sound T v d xs → v.size.toNat + n ≤ v.capacity.toNat →
    wp Cuda.checked (pushTimes T value n) (fun _ v' d' => Sound T v' d' (xs ++ List.replicate n value) ∧ Frame v v') E v d := by
  induction n with
  | zero =>
    intro v d xs h _
    refine ⟨?_, .refl v⟩
    rwa [List.replicate_zero, List.append_nil]
  | succ n ih =>
    intro v d xs h hroom
    have hcap := capacity_le h
    unfold pushTimes
    rw [wp_bind]
    have hfits : v.Fits (.pushBack value) := by
      intro hfull
      rw [hfull] at hroom
      omega
    refine wp_mono (pushBack_wp h hfits) ?_ ?_
    · intro _ v' d' ⟨_, hsound, hmono, hframe⟩
      rw [BitVec.le_def] at hmono
      have hsize : v'.size.toNat = v.size.toNat + 1 := by rw [hsound.size, h.size, List.length_append, List.length_singleton]
      refine wp_mono (ih hsound (by omega)) ?_ fun _ _ _ h => h
      intro _ v'' d'' ⟨hsound', hframe'⟩
      refine ⟨?_, hframe.trans hframe'⟩
      rwa [List.append_assoc, List.singleton_append, ← List.replicate_succ] at hsound'
    · intro _ v' d' ⟨hmax, _⟩
      rw [hmax] at hroom
      omega

/-- `resize` cuts the elements or fills them up, or throws when there is not enough room. -/
theorem resize_wp (h : Sound T v d xs) {n : Size} (hfits : v.Fits (.resize (T := T) n)) :
    wp Cuda.checked (resize T n) (fun _ v' d' => ¬v.maxCapacity < n ∧ Sound T v' d' (VecOp.plain xs (.resize n)) ∧ Frame v v')
      (fun _ v' d' => v.maxCapacity < n ∧ v' = v ∧ d' = d) v d := by
  have hle := h.size_le
  have hcap := capacity_le h
  have hsize := h.size
  unfold resize
  rw [wp_bind, wp_get, wp_ite]
  refine ⟨fun hdown => ?_, fun hup => ?_⟩
  · rw [BitVec.le_def] at hdown
    have hsub : (v.size - n).toNat = v.size.toNat - n.toNat := BitVec.toNat_sub_of_le (BitVec.le_def.2 hdown)
    rw [hsub]
    refine wp_mono (popTimes_wp _ h fun hne => hfits.1 (BitVec.lt_def.2 (by omega))) ?_ fun _ _ _ h => h
    intro _ v' d' ⟨hsound, hframe⟩
    refine ⟨fun hlt => ?_, ?_, hframe⟩
    · rw [BitVec.lt_def] at hlt
      omega
    · show Sound T v' d' (xs.take n.toNat ++ List.replicate (n.toNat - xs.length) T.default)
      rwa [show n.toNat - xs.length = 0 by omega, List.replicate_zero, List.append_nil,
        show n.toNat = xs.length - (v.size.toNat - n.toNat) by omega]
  · rw [BitVec.le_def] at hup
    have hpush {v' : VMMVector} {d' : Cuda Memory} (hsound : Sound T v' d' xs) (hroom : n.toNat ≤ v'.capacity.toNat)
        (hmax : n.toNat ≤ v.maxCapacity.toNat) (hframe : Frame v v') : wp Cuda.checked (do
          let v ← get
          pushTimes T T.default (n - v.size).toNat : VecM Unit)
          (fun _ v' d' => ¬v.maxCapacity < n ∧ Sound T v' d' (VecOp.plain xs (.resize n)) ∧ Frame v v')
          (fun _ v' d' => v.maxCapacity < n ∧ v' = v ∧ d' = d) v' d' := by
      have hsize' := hsound.size
      have hsub : (n - v'.size).toNat = n.toNat - v'.size.toNat := BitVec.toNat_sub_of_le (BitVec.le_def.2 (by omega))
      rw [wp_bind, wp_get, hsub]
      refine wp_mono (pushTimes_wp _ hsound (by omega)) ?_ fun _ _ _ h => h
      intro _ v'' d'' ⟨hsound', hframe'⟩
      refine ⟨fun hlt => ?_, ?_, hframe.trans hframe'⟩
      · rw [BitVec.lt_def] at hlt
        omega
      · show Sound T v'' d'' (xs.take n.toNat ++ List.replicate (n.toNat - xs.length) T.default)
        rwa [List.take_of_length_le (by omega), ← hsize']
    rw [wp_bind, wp_ite]
    refine ⟨fun hgrow => ?_, fun hroom => ?_⟩
    · refine wp_mono (reserve_wp h hfits.2) ?_ fun _ _ _ h => h
      intro _ v' d' ⟨hmax, hsound, hroom, _, hframe⟩
      exact hpush hsound (BitVec.le_def.1 hroom) (BitVec.le_def.1 hmax) hframe
    · rw [wp_pure]
      have hroom : n.toNat ≤ v.capacity.toNat := by
        rw [BitVec.lt_def] at hroom
        omega
      exact hpush h hroom (by omega) (.refl v)

/-! ## The constructor -/

/-- What was mapped before is apart from a new reservation. -/
theorem apart_of_contained (hd : d.Contained) {base : Ptr} {size : Size} (hsize : size ≠ 0)
    (hnew : ∀ (va : Ptr) (len : Size), d.reservations[va]? = some len → Apart base size va len) {va : Ptr} {m : Mapping}
    (hm : d.mappings[va]? = some m) : va.toNat + m.size.toNat ≤ base.toNat ∨ base.toNat + size.toNat ≤ va.toNat := by
  obtain ⟨hne, hin⟩ := hd va m hm
  have hpos : 0 < m.size.toNat := Nat.pos_of_ne_zero fun h0 => hne (BitVec.eq_of_toNat_eq h0)
  have hpos' : 0 < size.toNat := Nat.pos_of_ne_zero fun h0 => hsize (BitVec.eq_of_toNat_eq h0)
  by_contra hover
  -- the first address of both
  obtain ⟨base', len, hlen, hlow, hhigh⟩ := hin (max va.toNat base.toNat) (by omega) (by omega)
  have hap := hnew base' len hlen
  unfold Apart at hap
  omega

/-- A vector that is constructed is in order and empty. -/
theorem make_wp {maxCapacity chunkSize : Size} {retainLast : BitVec 32} {useDevice : Bool} (hd : d.Contained) :
    wp Cuda.checked (make T maxCapacity chunkSize retainLast useDevice) (fun _ v' d' => v'.Declared T → Sound T v' d' [])
      (fun _ _ _ => True) {} d := by
  have hrequire {c : Prop} [Decidable c] {e : VecError} {Q : Unit → VMMVector → Cuda Memory → Prop} {v : VMMVector} {d : Cuda Memory}
      (h : c → Q () v d) :
      wp Cuda.checked (require c e) Q (fun _ _ _ => True) v d := by
    unfold require
    split
    · exact h ‹_›
    · trivial
  unfold make cu
  simp only [wp_bind, wp_get, wp_call, wp_modify]
  refine ⟨trivial, fun gran d₁ hd₁ => ?_⟩
  obtain ⟨-, -, x, rfl⟩ := hd₁
  generalize hchunk : roundUp chunkSize gran = chunk
  refine hrequire fun hne => hrequire fun hle => hrequire fun hmod => ⟨trivial, fun base d₂ hd₂ hdecl => ?_⟩
  obtain ⟨hsize, ⟨⟨-, -, -, hnew⟩, hend⟩, y, rfl⟩ := hd₂
  have hfits : (chunk / T.sizeof).toNat * T.sizeof.toNat = chunk.toNat := by
    have hzero := congrArg BitVec.toNat hmod
    rw [BitVec.toNat_umod] at hzero
    rw [BitVec.toNat_udiv]
    exact Nat.div_mul_cancel (Nat.dvd_of_mod_eq_zero hzero)
  generalize chunk / T.sizeof = fits at *
  have hmul : fits.toNat ∣ (roundUp maxCapacity fits).toNat := Words.dvd_roundUp maxCapacity fits
  generalize roundUp maxCapacity fits = max at *
  have hbytes : (max * T.sizeof).toNat = max.toNat * T.sizeof.toNat := by
    rw [BitVec.toNat_mul]
    exact Nat.mod_eq_of_lt hdecl
  have hrooms : max.toNat / fits.toNat * chunk.toNat = (max * T.sizeof).toNat := by
    rw [hbytes, ← hfits, ← Nat.mul_assoc, Nat.div_mul_cancel hmul]
  have hreserved : (d₁.reservations.insert base (max * T.sizeof))[base]? = some (max * T.sizeof) := by
    rw [OrdMap.getElem?_insert, if_pos rfl]
  have hrow : (d₁.after (.reserve (max * T.sizeof) 0) base y).Row base chunk (max.toNat / fits.toNat) [] := by
    refine ⟨hne, Nat.zero_le _, by rwa [hrooms], ⟨_, hreserved, hrooms.symm⟩, fun _ i k hk => absurd hk (by simp),
      fun va m hm => .inr ?_, fun k hk => absurd hk List.not_mem_nil, .nil⟩
    rw [hrooms]
    exact apart_of_contained hd hsize hnew hm
  exact ⟨hrow, hfits, (Nat.div_mul_cancel hmul).symm, (Nat.zero_mul _).symm, rfl, le_rfl, fun _ i hi => absurd hi (Nat.not_lt_zero i)⟩

/-! ## Vectors in order -/

/-- A vector whose chunks are a row is in order. -/
theorem good_of_sound (h : Sound T v d xs) : (⟨v, d, xs⟩ : Vec T).Good := by
  have hpos := RowAux.chunk_pos h.row
  have hfits := h.row.fits
  have hcap := capacity_le h
  have hrooms : rooms v * v.chunkSize.toNat = v.maxCapacity.toNat * T.sizeof.toNat := by rw [← bytes_of_chunks h, ← h.max]
  have hbytes : (v.maxCapacity * T.sizeof).toNat = v.maxCapacity.toNat * T.sizeof.toNat := by
    rw [BitVec.toNat_mul]
    exact Nat.mod_eq_of_lt (by omega)
  refine ⟨h.capacity, BitVec.le_def.2 h.size_le, BitVec.le_def.2 hcap, ?_, fun va m => ?_, h.size, ?_⟩
  · obtain ⟨len, hlen, heq⟩ := h.row.reserved
    exact ⟨len, hlen, heq.trans hrooms⟩
  · unfold Apart
    dsimp only
    rw [hbytes, ← hrooms]
    constructor
    · intro ⟨hm, hover⟩
      rcases h.row.apart va m hm with ⟨i, hi, hva⟩ | hout
      · have hk := List.getElem?_eq_getElem hi
        exact ⟨i, _, hk, hva, Option.some.inj (hm.symm.trans (h.row.slot va i _ hk hva))⟩
      · exact absurd hout hover
    · intro ⟨i, k, hk, hva, heq⟩
      obtain ⟨hi, -⟩ := List.getElem?_eq_some_iff.1 hk
      have hle : (i + 1) * v.chunkSize.toNat ≤ rooms v * v.chunkSize.toNat := Nat.mul_le_mul_right _ (hi.trans_le h.row.le)
      rw [Nat.add_mul, Nat.one_mul] at hle
      subst heq
      dsimp only
      exact ⟨h.row.slot va i k hk hva, by omega⟩
  · have hlen := length_flatMap xs
    rw [← h.size] at hlen
    have hle : v.size.toNat * T.sizeof.toNat ≤ v.maxCapacity.toNat * T.sizeof.toNat := Nat.mul_le_mul_right _ (h.size_le.trans hcap)
    show d.bytes? v.dPtr (v.size.toNat * T.sizeof.toNat) = _
    rw [← hlen]
    exact RowAux.bytes_of_holds (by omega) h.holds

/-- The host gets the elements. -/
theorem copyToHost_wp (h : Sound T v d xs) : wp Cuda.checked (copyToHost T)
    (fun bs v' d' => bs = xs.flatMap ElemType.Value.bytes ∧ v' = v ∧ d' = d) (fun _ _ _ => False) v d := by
  have hle : v.size.toNat * T.sizeof.toNat ≤ v.maxCapacity.toNat * T.sizeof.toNat := Nat.mul_le_mul_right _ (h.size_le.trans (capacity_le h))
  have hmax : v.maxCapacity.toNat * T.sizeof.toNat = rooms v * v.chunkSize.toNat := by rw [← bytes_of_chunks h, ← h.max]
  have hfits := h.row.fits
  have hbytes : (v.size * T.sizeof).toNat = v.size.toNat * T.sizeof.toNat := by
    rw [BitVec.toNat_mul]
    exact Nat.mod_eq_of_lt (by omega)
  have helements : d.bytes? v.dPtr (v.size * T.sizeof).toNat = some (xs.flatMap ElemType.Value.bytes) := by
    rw [hbytes]
    exact (good_of_sound h).elements
  unfold copyToHost
  rw [wp_bind, wp_get, wp_call]
  refine ⟨?_, fun bs d' hr => ?_⟩
  · show (d.bytes? v.dPtr (v.size * T.sizeof).toNat).isSome = true
    rw [helements]
    rfl
  · obtain ⟨hbs, rfl⟩ := hr
    rw [helements] at hbs
    exact ⟨(Option.some.inj hbs).symm, rfl, rfl⟩

/-- What an operation does to a vector that is in order. -/
theorem op_wp (h : Sound T v d xs) {o : VecOp T} (hfits : v.Fits o) : wp Cuda.checked o.program
    (fun _ v' d' => ¬o.TooLarge v ∧ Sound T v' d' (o.plain xs)) (fun _ v' d' => o.TooLarge v ∧ Sound T v' d' xs) v d := by
  cases o with
  | pushBack value =>
    refine wp_mono (pushBack_wp h hfits) (fun _ v' d' ⟨hne, hsound, _⟩ => ⟨hne, hsound⟩) fun _ v' d' ⟨heq, hv, hd⟩ => ⟨heq, ?_⟩
    rwa [hv, hd]
  | popBack => exact wp_mono (popBack_wp (E := fun _ _ _ => False) h hfits) (fun _ v' d' ⟨hsound, _⟩ => ⟨id, hsound⟩) fun _ _ _ => False.elim
  | resize n =>
    refine wp_mono (resize_wp h hfits) (fun _ v' d' ⟨hle, hsound, _⟩ => ⟨hle, hsound⟩) fun _ v' d' ⟨hlt, hv, hd⟩ => ⟨hlt, ?_⟩
    rwa [hv, hd]
  | reserve n =>
    refine wp_mono (reserve_wp h hfits) (fun _ v' d' ⟨hle, hsound, _⟩ => ⟨?_, hsound⟩) fun _ v' d' ⟨hlt, hv, hd⟩ => ⟨hlt, ?_⟩
    · show ¬v.maxCapacity < n
      rw [BitVec.le_def] at hle
      rw [BitVec.lt_def]
      omega
    · rwa [hv, hd]
  | setRetainLast r => exact ⟨id, h.row, h.fits, h.max, h.capacity, h.size, h.size_le, h.holds⟩

/-- A vector stays in order while its steps fit. -/
theorem reached_sound {x : Vec T} (h : x.Reached (VMMVector.Declared T) VMMVector.Fits) : Sound T x.v x.d x.xs := by
  induction h with
  | make hd _ hrun hv => exact Prog.Runs.of_wp hrun (make_wp hd) hv
  | @op x o r v' d' _ _ hok hrun ih =>
    have hop := Prog.Runs.of_wp hrun (op_wp ih hok)
    cases r with
    | ok _ => exact hop.2
    | error _ => exact hop.2

end VectorAux

end Vmem
