import Vmem.VMMVector

/-!
# Rows of chunks

A reservation whose first slots are mapped, each to a chunk of its own: which byte an address reaches, and how the row grows and shrinks.
-/

namespace Vmem

/-- The first slots of a reservation with room for so many chunks are mapped to these handles, and nothing else of it is. -/
structure Cuda.Row {β : Type} (d : Cuda β) (base : Ptr) (chunk : Size) (room : Nat) (hs : List Handle) : Prop where
  chunk_ne : chunk ≠ 0
  le : hs.length ≤ room
  fits : base.toNat + room * chunk.toNat < 2 ^ 64
  reserved : ∃ len : Size, d.reservations[base]? = some len ∧ len.toNat = room * chunk.toNat
  slot : ∀ (va : Ptr) (i : Nat) (k : Handle), hs[i]? = some k → va.toNat = base.toNat + i * chunk.toNat →
    d.mappings[va]? = some ⟨chunk, k, true⟩
  apart : ∀ (va : Ptr) (m : Mapping), d.mappings[va]? = some m → (∃ i < hs.length, va.toNat = base.toNat + i * chunk.toNat) ∨
    va.toNat + m.size.toNat ≤ base.toNat ∨ base.toNat + room * chunk.toNat ≤ va.toNat
  alive : ∀ h ∈ hs, ∃ p, d.handles[h]? = some p ∧ p.size = chunk
  nodup : hs.Nodup

/-- The bytes that stand from an address on. -/
def Cuda.Holds (d : Cuda Memory) (base : Ptr) (bs : List Byte) : Prop :=
  ∀ (va : Ptr) (i : Nat) (hi : i < bs.length), va.toNat = base.toNat + i → d.byte? va = some bs[i]

namespace RowAux

variable {β : Type} {d : Cuda β} {base va : Ptr} {chunk : Size} {room a : Nat} {hs : List Handle}

/-- A chunk has bytes. -/
theorem chunk_pos (h : d.Row base chunk room hs) : 0 < chunk.toNat :=
  Nat.pos_of_ne_zero fun h0 => h.chunk_ne (BitVec.eq_of_toNat_eq h0)

/-- The chunks of a row are inside its range. -/
theorem len_mul_le (h : d.Row base chunk room hs) : hs.length * chunk.toNat ≤ room * chunk.toNat := Nat.mul_le_mul_right _ h.le

/-- Every byte of the row is in a slot. -/
theorem exists_slot (h : d.Row base chunk room hs) (ha : a < hs.length * chunk.toNat) :
    ∃ k p, hs[a / chunk.toNat]? = some k ∧ d.handles[k]? = some p := by
  have hi : a / chunk.toNat < hs.length := Nat.div_lt_of_lt_mul (by rwa [Nat.mul_comm] at ha)
  obtain ⟨p, hp, -⟩ := h.alive _ (List.getElem_mem hi)
  exact ⟨_, p, List.getElem?_eq_getElem hi, hp⟩

/-- An address in a slot reaches the chunk of the slot. -/
theorem locate_row {k : Handle} (h : d.Row base chunk room hs) (hk : hs[a / chunk.toNat]? = some k) (hva : va.toNat = base.toNat + a) :
    d.locate va = some (k, a % chunk.toNat) := by
  have hpos := chunk_pos h
  obtain ⟨hi, -⟩ := List.getElem?_eq_some_iff.1 hk
  have ha : a < hs.length * chunk.toNat := (Nat.div_lt_iff_lt_mul hpos).1 hi
  have hfits := h.fits
  have hroom := len_mul_le h
  have hsplit := Nat.div_add_mod' a chunk.toNat
  have hmod := Nat.mod_lt a hpos
  have hstart : (BitVec.ofNat 64 (base.toNat + a / chunk.toNat * chunk.toNat) : Ptr).toNat = base.toNat + a / chunk.toNat * chunk.toNat := by
    rw [BitVec.toNat_ofNat]
    exact Nat.mod_eq_of_lt (by omega)
  have hfloor : d.mappings.floor? va = some (BitVec.ofNat 64 (base.toNat + a / chunk.toNat * chunk.toNat), ⟨chunk, k, true⟩) := by
    rw [OrdMap.floor?_eq_some_iff]
    refine ⟨h.slot _ _ k hk hstart, ?_, fun va' m' hm' hle => ?_⟩
    · rw [OrdMap.isLE_iff, BitVec.le_def, hstart]
      omega
    · rw [OrdMap.isLE_iff, BitVec.le_def] at hle ⊢
      rw [hstart]
      rcases h.apart va' m' hm' with ⟨j, -, hj⟩ | hbelow | habove
      · have hji : j ≤ a / chunk.toNat := (Nat.le_div_iff_mul_le hpos).2 (by omega)
        have := Nat.mul_le_mul_right chunk.toNat hji
        omega
      · omega
      · omega
  unfold Cuda.locate
  rw [hfloor]
  dsimp only
  rw [if_pos ⟨rfl, by omega⟩, hstart, show va.toNat - (base.toNat + a / chunk.toNat * chunk.toNat) = a % chunk.toNat by omega]

/-- A row only depends on the reservations, the mappings and the sizes of the handles. -/
theorem row_congr {d' : Cuda β} (h : d.Row base chunk room hs) (hres : d'.reservations = d.reservations) (hmap : d'.mappings = d.mappings)
    (hhandles : ∀ (k : Handle) (p : Phys β), d.handles[k]? = some p → ∃ p', d'.handles[k]? = some p' ∧ p'.size = p.size) :
    d'.Row base chunk room hs where
  chunk_ne := h.chunk_ne
  le := h.le
  fits := h.fits
  reserved := hres ▸ h.reserved
  slot := hmap ▸ h.slot
  apart := hmap ▸ h.apart
  alive k hk := by
    obtain ⟨p, hp, hsize⟩ := h.alive k hk
    obtain ⟨p', hp', hsame⟩ := hhandles k p hp
    exact ⟨p', hp', hsame.trans hsize⟩
  nodup := h.nodup

/-! ## Bytes -/

section Bytes

variable {d : Cuda Memory} {b : Byte} {bs ys : List Byte}

/-- A byte of the row is in the chunk that its offset falls into. -/
theorem byte_row {k : Handle} (h : d.Row base chunk room hs) (hk : hs[a / chunk.toNat]? = some k) (hva : va.toNat = base.toNat + a) :
    d.byte? va = d.handles[k]?.map fun p => p.data (a % chunk.toNat) := by
  unfold Cuda.byte?
  rw [locate_row h hk hva]

/-- So is a byte that is written. -/
theorem setByte_row {k : Handle} {p : Phys Memory} (h : d.Row base chunk room hs) (hk : hs[a / chunk.toNat]? = some k)
    (hp : d.handles[k]? = some p) (hva : va.toNat = base.toNat + a) (b : Byte) :
    d.setByte va b = { d with handles := d.handles.insert k { p with data := Function.update p.data (a % chunk.toNat) b } } := by
  unfold Cuda.setByte
  rw [locate_row h hk hva]
  dsimp only
  rw [hp]
  dsimp only
  unfold Cuda.write
  rw [hp]

/-- Writing a byte leaves the row. -/
theorem row_setByte (h : d.Row base chunk room hs) (ha : a < hs.length * chunk.toNat) (hva : va.toNat = base.toNat + a) (b : Byte) :
    (d.setByte va b).Row base chunk room hs := by
  obtain ⟨k, p, hk, hp⟩ := exists_slot h ha
  rw [setByte_row h hk hp hva b]
  refine row_congr h rfl rfl fun k' q hq => ?_
  dsimp only
  rw [OrdMap.getElem?_insert]
  by_cases hkk : k' = k
  · subst hkk
    cases hp.symm.trans hq
    exact ⟨_, if_pos rfl, rfl⟩
  · exact ⟨q, by rw [if_neg hkk, hq], rfl⟩

/-- A byte that is written is read back, and the others stay. -/
theorem byte_setByte (h : d.Row base chunk room hs) {a' : Nat} {va' : Ptr} (ha : a < hs.length * chunk.toNat) (hva : va.toNat = base.toNat + a)
    (ha' : a' < hs.length * chunk.toNat) (hva' : va'.toNat = base.toNat + a') (b : Byte) :
    (d.setByte va b).byte? va' = if a' = a then some b else d.byte? va' := by
  obtain ⟨k, p, hk, hp⟩ := exists_slot h ha
  obtain ⟨k', p', hk', hp'⟩ := exists_slot h ha'
  rw [byte_row (row_setByte h ha hva b) hk' hva', byte_row h hk' hva', setByte_row h hk hp hva b]
  dsimp only
  rw [OrdMap.getElem?_insert]
  by_cases hkk : k' = k
  · subst hkk
    have hslot : a' / chunk.toNat = a / chunk.toNat := by
      obtain ⟨hi, hget⟩ := List.getElem?_eq_some_iff.1 hk
      obtain ⟨hi', hget'⟩ := List.getElem?_eq_some_iff.1 hk'
      exact (List.Nodup.getElem_inj_iff h.nodup).1 (hget'.trans hget.symm)
    rw [if_pos rfl, hp, Option.map_some, Option.map_some]
    dsimp only
    by_cases hat : a' = a
    · rw [if_pos hat, hat, Function.update_self]
    · have hne : a' % chunk.toNat ≠ a % chunk.toNat := by
        intro hmod
        exact hat (by rw [← Nat.div_add_mod' a' chunk.toNat, ← Nat.div_add_mod' a chunk.toNat, hslot, hmod])
      rw [if_neg hat, Function.update_of_ne hne]
  · have hat : a' ≠ a := by
      rintro rfl
      exact hkk (Option.some.inj (hk'.symm.trans hk))
    rw [if_neg hkk, if_neg hat]

/-- The next address does not wrap inside a range. -/
theorem toNat_next {va : Ptr} {n : Nat} (hva : va.toNat = n) (h : n + 1 < 2 ^ 64) : (va + 1).toNat = n + 1 := by
  rw [BitVec.toNat_add, hva]
  exact Nat.mod_eq_of_lt h

/-- Writing bytes leaves the row. -/
theorem row_setBytes (bs : List Byte) : ∀ {d : Cuda Memory} {va : Ptr} {a : Nat}, d.Row base chunk room hs →
    a + bs.length ≤ hs.length * chunk.toNat → va.toNat = base.toNat + a → (d.setBytes va bs).Row base chunk room hs := by
  induction bs with
  | nil => exact fun h _ _ => h
  | cons b bs ih =>
    intro d va a h ha hva
    have hfits := h.fits
    have hroom := len_mul_le h
    rw [List.length_cons] at ha
    exact ih (a := a + 1) (row_setByte h (by omega) hva b) (by omega) (toNat_next (n := base.toNat + a) hva (by omega))

/-- Bytes that are written are read back, and the others stay. -/
theorem byte_setBytes (bs : List Byte) : ∀ {d : Cuda Memory} {va va' : Ptr} {a a' : Nat}, d.Row base chunk room hs →
    a + bs.length ≤ hs.length * chunk.toNat → va.toNat = base.toNat + a → a' < hs.length * chunk.toNat → va'.toNat = base.toNat + a' →
    (d.setBytes va bs).byte? va' = if a ≤ a' ∧ a' < a + bs.length then bs[a' - a]? else d.byte? va' := by
  induction bs with
  | nil =>
    intro d va va' a a' h _ _ _ _
    rw [if_neg (by simp)]
    rfl
  | cons b bs ih =>
    intro d va va' a a' h ha hva ha' hva'
    have hfits := h.fits
    have hroom := len_mul_le h
    rw [List.length_cons] at ha ⊢
    show ((d.setByte va b).setBytes (va + 1) bs).byte? va' = _
    rw [ih (a := a + 1) (row_setByte h (by omega) hva b) (by omega) (toNat_next (n := base.toNat + a) hva (by omega)) ha' hva',
      byte_setByte h (by omega) hva ha' hva' b]
    by_cases hat : a' = a
    · subst hat
      rw [if_neg (by omega), if_pos rfl, if_pos (by omega), Nat.sub_self]
      rfl
    · rw [if_neg hat]
      by_cases hin : a + 1 ≤ a' ∧ a' < a + 1 + bs.length
      · rw [if_pos hin, if_pos (by omega), show a' - a = a' - (a + 1) + 1 by omega, List.getElem?_cons_succ]
      · rw [if_neg hin, if_neg (by omega)]

/-- A row that holds bytes holds the first of them. -/
theorem holds_prefix (h : d.Holds base (bs ++ ys)) : d.Holds base bs := by
  intro va i hi hva
  have hlen : i < (bs ++ ys).length := by
    rw [List.length_append]
    omega
  rw [h va i hlen hva, List.getElem_append_left hi]

/-- What is written behind the bytes that stand there stands behind them. -/
theorem holds_append (h : d.Row base chunk room hs) (hbs : d.Holds base bs) (hlen : bs.length + ys.length ≤ hs.length * chunk.toNat)
    (hva : va.toNat = base.toNat + bs.length) : (d.setBytes va ys).Holds base (bs ++ ys) := by
  intro va' i hi hva'
  rw [List.length_append] at hi
  rw [byte_setBytes ys h hlen hva (by omega) hva']
  by_cases hlow : i < bs.length
  · rw [if_neg (by omega), hbs va' i hlow hva', List.getElem_append_left hlow]
  · rw [if_pos (by omega), List.getElem_append_right (by omega), List.getElem?_eq_getElem]

/-- Bytes that are held are read back. -/
theorem bytes_of_holds : ∀ {base : Ptr}, base.toNat + bs.length < 2 ^ 64 → d.Holds base bs → d.bytes? base bs.length = some bs := by
  induction bs with
  | nil => exact fun _ _ => rfl
  | cons b bs ih =>
    intro base hend h
    rw [List.length_cons] at hend
    have hnext : (base + 1).toNat = base.toNat + 1 := toNat_next rfl (by omega)
    have hrest : d.Holds (base + 1) bs := by
      intro va i hi hva
      have hlen : i + 1 < (b :: bs).length := Nat.succ_lt_succ hi
      rw [h va (i + 1) hlen (by omega)]
      rfl
    rw [List.length_cons, Cuda.bytes?, h base 0 (Nat.succ_pos _) rfl, ih (by omega) hrest]
    rfl

/-- All of the row can be read. -/
theorem bytes_row (h : d.Row base chunk room hs) : ∀ {n a : Nat} {va : Ptr}, a + n ≤ hs.length * chunk.toNat → va.toNat = base.toNat + a →
    (d.bytes? va n).isSome = true := by
  intro n
  induction n with
  | zero => exact fun _ _ => rfl
  | succ n ih =>
    intro a va ha hva
    have hfits := h.fits
    have hroom := len_mul_le h
    obtain ⟨k, p, hk, hp⟩ := exists_slot (a := a) h (by omega)
    obtain ⟨bs, hbs⟩ := Option.isSome_iff_exists.1 (ih (a := a + 1) (by omega) (toNat_next (n := base.toNat + a) hva (by omega)))
    have hb : d.byte? va = some (p.data (a % chunk.toNat)) := by
      rw [byte_row h hk hva, hp]
      rfl
    rw [Cuda.bytes?, hb, hbs]
    rfl

end Bytes

/-! ## Growth -/

/-- The slot behind the row can be mapped to a chunk. -/
theorem accepts_map {k : Handle} {p : Phys β} (h : d.Row base chunk room hs) (hlt : hs.length < room)
    (hva : va.toNat = base.toNat + hs.length * chunk.toNat) (hk : d.handles[k]? = some p) (hsize : p.size = chunk) :
    d.Accepts (.map va chunk k) := by
  have hpos := chunk_pos h
  have hnext : (hs.length + 1) * chunk.toNat ≤ room * chunk.toNat := Nat.mul_le_mul_right _ hlt
  rw [Nat.add_mul, Nat.one_mul] at hnext
  refine ⟨⟨p, hk, hsize⟩, fun a hlow hhigh => ?_, fun va' m' hm' => ?_⟩
  · obtain ⟨len, hlen, hroom⟩ := h.reserved
    exact ⟨base, len, hlen, by omega, by omega⟩
  · unfold Apart
    rcases h.apart va' m' hm' with ⟨j, hj, hva'⟩ | hbelow | habove
    · obtain ⟨k', hk'⟩ : ∃ k', hs[j]? = some k' := ⟨_, List.getElem?_eq_getElem hj⟩
      cases (h.slot va' j k' hk' hva').symm.trans hm'
      have hle : (j + 1) * chunk.toNat ≤ hs.length * chunk.toNat := Nat.mul_le_mul_right _ hj
      rw [Nat.add_mul, Nat.one_mul] at hle
      right
      show va'.toNat + chunk.toNat ≤ va.toNat
      omega
    · omega
    · omega

/-- A new chunk behind the row, mapped and with access. -/
theorem row_grow {d' : Cuda β} {k : Handle} {p : Phys β} (h : d.Row base chunk room hs) (hlt : hs.length < room)
    (hva : va.toNat = base.toNat + hs.length * chunk.toNat) (hnew : d.handles[k]? = none) (hsize : p.size = chunk)
    (hres : d'.reservations = d.reservations) (hhandles : d'.handles = d.handles.insert k p)
    (hmap : d'.mappings = d.mappings.insert va ⟨chunk, k, true⟩) : d'.Row base chunk room (hs ++ [k]) where
  chunk_ne := h.chunk_ne
  le := by
    rw [List.length_append]
    exact hlt
  fits := h.fits
  reserved := hres ▸ h.reserved
  slot va' i k' hk' hva' := by
    rw [hmap, OrdMap.getElem?_insert]
    rcases Nat.lt_trichotomy i hs.length with hlt | rfl | hgt
    · have hne : va' ≠ va := by
        rintro rfl
        have heq : i * chunk.toNat = hs.length * chunk.toNat := by omega
        exact hlt.ne (Nat.eq_of_mul_eq_mul_right (chunk_pos h) heq)
      rw [List.getElem?_append_left hlt] at hk'
      rw [if_neg hne]
      exact h.slot va' i k' hk' hva'
    · rw [List.getElem?_append_right le_rfl, Nat.sub_self] at hk'
      cases hk'
      rw [if_pos (BitVec.eq_of_toNat_eq (by omega))]
    · rw [List.getElem?_eq_none (by simp; omega)] at hk'
      cases hk'
  apart va' m' hm' := by
    rw [hmap, OrdMap.getElem?_insert] at hm'
    rw [List.length_append, List.length_singleton]
    by_cases hva' : va' = va
    · exact .inl ⟨hs.length, Nat.lt_succ_self _, hva' ▸ hva⟩
    · rw [if_neg hva'] at hm'
      rcases h.apart va' m' hm' with ⟨i, hi, hi'⟩ | hout
      · exact .inl ⟨i, by omega, hi'⟩
      · exact .inr hout
  alive k' hk' := by
    rw [hhandles, OrdMap.getElem?_insert]
    by_cases hkk : k' = k
    · exact ⟨p, if_pos hkk, hsize⟩
    · rw [if_neg hkk]
      refine h.alive k' ((List.mem_append.1 hk').resolve_right fun hmem => hkk (List.mem_singleton.1 hmem))
  nodup := by
    refine List.nodup_append.2 ⟨h.nodup, List.nodup_singleton k, fun x hx y hy => ?_⟩
    rw [List.mem_singleton.1 hy]
    rintro rfl
    obtain ⟨q, hq, -⟩ := h.alive x hx
    rw [hnew] at hq
    cases hq

/-! ## Shrinking -/

/-- The last chunk of a row can be unmapped. -/
theorem accepts_unmap {k : Handle} (h : d.Row base chunk room (hs ++ [k])) (hva : va.toNat = base.toNat + hs.length * chunk.toNat) :
    d.Accepts (.unmap va chunk) :=
  ⟨⟨chunk, k, true⟩, h.slot va hs.length k (by simp) hva, rfl⟩

/-- The last chunk is unmapped and released. -/
theorem row_shrink {d' : Cuda β} {k : Handle} (h : d.Row base chunk room (hs ++ [k]))
    (hva : va.toNat = base.toNat + hs.length * chunk.toNat) (hres : d'.reservations = d.reservations)
    (hhandles : d'.handles = d.handles.erase k) (hmap : d'.mappings = d.mappings.erase va) : d'.Row base chunk room hs := by
  obtain ⟨hnodup, -, hnot⟩ := List.nodup_append.1 h.nodup
  have hne (k' : Handle) (hk' : k' ∈ hs) : k' ≠ k := hnot k' hk' k List.mem_cons_self
  refine ⟨h.chunk_ne, ?_, h.fits, hres ▸ h.reserved, fun va' i k' hk' hva' => ?_, fun va' m' hm' => ?_, fun k' hk' => ?_, hnodup⟩
  · have hle := h.le
    rw [List.length_append] at hle
    omega
  · obtain ⟨hi, -⟩ := List.getElem?_eq_some_iff.1 hk'
    have hvv : va' ≠ va := by
      rintro rfl
      have heq : i * chunk.toNat = hs.length * chunk.toNat := by omega
      exact hi.ne (Nat.eq_of_mul_eq_mul_right (chunk_pos h) heq)
    rw [hmap, OrdMap.getElem?_erase, if_neg hvv]
    exact h.slot va' i k' (by rw [List.getElem?_append_left hi, hk']) hva'
  · rw [hmap, OrdMap.getElem?_erase] at hm'
    split at hm'
    · cases hm'
    · rcases h.apart va' m' hm' with ⟨i, hi, hi'⟩ | hout
      · rw [List.length_append, List.length_singleton, Nat.lt_succ_iff_lt_or_eq] at hi
        rcases hi with hi | rfl
        · exact .inl ⟨i, hi, hi'⟩
        · exact absurd (BitVec.eq_of_toNat_eq (hi'.trans hva.symm)) ‹¬va' = va›
      · exact .inr hout
  · obtain ⟨p, hp, hsize⟩ := h.alive k' (List.mem_append_left _ hk')
    exact ⟨p, by rw [hhandles, OrdMap.getElem?_erase, if_neg (hne k' hk'), hp], hsize⟩

/-- Bytes in the part of a row that two drivers share. -/
theorem holds_shared {d d' : Cuda Memory} {hs' : List Handle} {bs : List Byte} (h : d.Row base chunk room hs) (h' : d'.Row base chunk room hs')
    (hshared : ∀ (i : Nat) (k : Handle), i * chunk.toNat < bs.length → hs[i]? = some k → hs'[i]? = some k ∧ d'.handles[k]? = d.handles[k]?)
    (hlen : bs.length ≤ hs.length * chunk.toNat) (hbs : d.Holds base bs) : d'.Holds base bs := by
  intro va i hi hva
  obtain ⟨k, p, hk, hp⟩ := exists_slot (a := i) h (by omega)
  have hle := Nat.div_mul_le_self i chunk.toNat
  obtain ⟨hk', hsame⟩ := hshared _ k (by omega) hk
  rw [byte_row h' hk' hva, hsame, ← byte_row h hk hva]
  exact hbs va i hi hva

end RowAux

end Vmem
