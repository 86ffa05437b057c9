import Vmem.Lemmas.ClientView

/-!
# The calls of a client

What `create`, `destroy` and `move` leave behind in the world of one client: the broker's record agrees with the backend's chunks
when the call returns, every message on the way was orderly, and the record covered the client's device memory before every
call it made.
-/

namespace Vmem

namespace ViewAux

open VmemBackend

variable {α γ : Type} {ov : Size}

/-! ## Copies and chunks -/

/-- Every copy backs a recorded chunk. -/
def Backed (m : OrdMap Ptr Rec) (g : Gpu) : Prop :=
  ∀ (h : Handle) (c : Copy), g.copies[h]? = some c →
    ∃ (va : Ptr) (r : Rec), m[va]? = some r ∧ r.h = h ∧ r.size = c.size ∧ r.loc = c.loc

/-- Copies that all back chunks weigh no more than the chunks' records. -/
theorem Backed.bytes_le {m : OrdMap Ptr Rec} {g : Gpu} (h : Backed m g) (l : Loc) : g.bytes l ≤ tableBytes (entries m) l := by
  rw [tableBytes, entries, OrdMap.total_map]
  refine OrdMap.total_le_of_embed (fun _ r => r.h) fun k c hc _ => ?_
  obtain ⟨va, r, hr, hrh, hs, hl⟩ := h k c hc
  refine ⟨va, r, hr, hrh, ?_⟩
  simp [ChunkRec.share, Rec.entry, hs, hl]

/-- A new copy adds its bytes at its place. -/
theorem bytes_insert {g : Gpu} {h : Handle} (hn : g.copies[h]? = none) (c : Copy) (l : Loc) :
    Gpu.bytes { g with copies := g.copies.insert h c } l = g.bytes l + if c.loc = l then c.size.toNat else 0 := by
  rw [Gpu.bytes, OrdMap.total_insert_new hn, add_comm]
  rfl

/-- Giving a copy up adds no bytes. -/
theorem bytes_erase_le (g : Gpu) (h : Handle) (l : Loc) : Gpu.bytes { g with copies := g.copies.erase h } l ≤ g.bytes l := by
  cases hc : g.copies[h]? with
  | none => rw [OrdMap.erase_of_getElem? hc]
  | some c =>
    have htotal := OrdMap.total_of_getElem? hc fun _ c => if c.loc = l then c.size.toNat else 0
    simp only [Gpu.bytes, htotal]
    exact Nat.le_add_left _ _

/-- Copies that are fewer back the same records. -/
theorem Backed.erase {m : OrdMap Ptr Rec} {g : Gpu} (h : Backed m g) (k : Handle) :
    Backed m { g with copies := g.copies.erase k } := by
  intro j c hc
  simp only [Std.ExtTreeMap.getElem?_erase] at hc
  split at hc
  · cases hc
  · exact h j c hc

/-- A new chunk with its copy. -/
theorem Backed.insert {m : OrdMap Ptr Rec} {g : Gpu} (hb : Backed m g) {va : Ptr} (hva : m[va]? = none) (h : Handle)
    (size : Size) (l : Loc) : Backed (m.insert va ⟨h, size, l⟩) { g with copies := g.copies.insert h ⟨size, l⟩ } := by
  intro j c hc
  simp only [Std.ExtTreeMap.getElem?_insert, Std.compare_eq_iff_eq] at hc
  split at hc
  · rename_i hj
    cases hc
    exact ⟨va, ⟨h, size, l⟩, by simp, hj, rfl, rfl⟩
  · obtain ⟨va', r, hr, hrest⟩ := hb j c hc
    have hne : va ≠ va' := by
      rintro rfl
      rw [hva] at hr
      cases hr
    exact ⟨va', r, by simp [Std.ExtTreeMap.getElem?_insert, hne, hr], hrest⟩

/-- A chunk with a new copy in place of its old one. -/
theorem Backed.replace {m : OrdMap Ptr Rec} {g : Gpu} (hb : Backed m g) {va : Ptr} {r : Rec} (hr : m[va]? = some r)
    (h : Handle) (size : Size) (l : Loc) :
    Backed (m.insert va ⟨h, size, l⟩) { g with copies := (g.copies.insert h ⟨size, l⟩).erase r.h } := by
  intro j c hc
  simp only [Std.ExtTreeMap.getElem?_erase, Std.ExtTreeMap.getElem?_insert, Std.compare_eq_iff_eq] at hc
  split at hc
  · cases hc
  · rename_i hold
    split at hc
    · rename_i hj
      cases hc
      exact ⟨va, ⟨h, size, l⟩, by simp, hj, rfl, rfl⟩
    · obtain ⟨va', r', hr', hrest⟩ := hb j c hc
      have hne : va ≠ va' := by
        rintro rfl
        rw [hr] at hr'
        cases hr'
        exact hold hrest.1
      exact ⟨va', r', by simp [Std.ExtTreeMap.getElem?_insert, hne, hr'], hrest⟩

/-- A chunk gone with its copy. -/
theorem Backed.remove {m : OrdMap Ptr Rec} {g : Gpu} (hb : Backed m g) {va : Ptr} {r : Rec} (hr : m[va]? = some r) :
    Backed (m.erase va) { g with copies := g.copies.erase r.h } := by
  intro j c hc
  simp only [Std.ExtTreeMap.getElem?_erase, Std.compare_eq_iff_eq] at hc
  split at hc
  · cases hc
  · rename_i hold
    obtain ⟨va', r', hr', hrest⟩ := hb j c hc
    have hne : va ≠ va' := by
      rintro rfl
      rw [hr] at hr'
      cases hr'
      exact hold hrest.1
    exact ⟨va', r', by simp [Std.ExtTreeMap.getElem?_erase, hne, hr'], hrest⟩

/-- Every base that was reserved still is. -/
def KeepsReserved (g g' : Gpu) : Prop := ∀ va : Ptr, g.reserved[va]?.isSome → g'.reserved[va]?.isSome

/-! ## Driver functions -/

/-- Code that leaves the chunks, the link and the socket, and has the outcomes `R` in the driver. -/
def Local (b : VmemBackend) (v : View) (R : α → Gpu → Prop) : α → VmemBackend → View → Prop :=
  fun a b' v' => b.SameMemory b' ∧ SameLink b b' ∧ v'.sock = v.sock ∧ R a v'.gpu

/-- An object has the link it has. -/
theorem SameLink.refl (b : VmemBackend) : SameLink b b := ⟨rfl, rfl⟩

/-- The link is the same through two steps. -/
theorem SameLink.trans {b b' b'' : VmemBackend} (h : SameLink b b') (h' : SameLink b' b'') : SameLink b b'' :=
  ⟨h'.link.trans h.link, h'.fd.trans h.fd⟩

/-- After code that leaves records and link alone, the rest is about the same records and link. -/
theorem local_seq {x : BackendM α} {f : α → BackendM γ} {R : α → Gpu → Prop} {Q : γ → Gpu → Prop} {b₀ b : VmemBackend}
    {v₀ v : View} (hb : b₀.SameMemory b) (hl : SameLink b₀ b) (hs : v.sock = v₀.sock)
    (h : Code.wp (view ov) x (Local b v R) b v)
    (hf : ∀ a b' v', b₀.SameMemory b' → SameLink b₀ b' → v'.sock = v₀.sock → R a v'.gpu →
      Code.wp (view ov) (f a) (Local b₀ v₀ Q) b' v') : Code.wp (view ov) (x >>= f) (Local b₀ v₀ Q) b v := by
  refine Code.wp_seq h ?_
  rintro a b' v' ⟨hb', hl', hs', hR⟩
  exact hf a b' v' (hb.trans hb') (hl.trans hl') (hs'.trans hs) hR

/-- Room for some bytes depends on the link and on the copies on the device. -/
theorem room_congr {v v' : View} {n : ℕ} (h : v.Room n) (hs : v'.sock = v.sock)
    (hb : v'.gpu.bytes .device ≤ v.gpu.bytes .device) : v'.Room n := by
  intro fd p hp
  rw [hs] at hp
  have hroom := h fd p hp
  cases p with
  | unconnected => trivial
  | idle t w =>
    cases w with
    | false => trivial
    | true => exact le_trans (Nat.add_le_add_right hb n) hroom
  | awaiting t m w =>
    cases w with
    | false => trivial
    | true => exact le_trans (Nat.add_le_add_right hb n) hroom

/-- Physical memory is made under a fresh handle, or nothing changes. -/
theorem createHandle_view {size : Size} {l : Loc} {b : VmemBackend} {v : View} (hr : v.Room 0) :
    Code.wp (view ov) (createHandle size l)
      (Local b v fun r g => (r.1 = .ok ∧ v.gpu.copies[r.2]? = none ∧
        g = { v.gpu with copies := v.gpu.copies.insert r.2 ⟨size, l⟩ }) ∨ (r.1 ≠ .ok ∧ g = v.gpu)) b v := by
  refine Code.wp_bind.2 (Code.wp_get.2 (cu_view hr (fun x hf => ?_) fun s b' hs hb hl => ?_))
  · exact ⟨.refl b, .refl b, rfl, .inl ⟨rfl, hf, rfl⟩⟩
  · exact ⟨hb, hl, rfl, .inr ⟨hs, rfl⟩⟩

/-- Mapping changes nothing that the view has. -/
theorem map_view {va : Ptr} {size : Size} {h : Handle} {b : VmemBackend} {v : View} (hr : v.Room 0) :
    Code.wp (view ov) (map va size h) (Local b v fun _ g => g = v.gpu) b v := by
  refine Code.wp_bind.2 (cu_view hr (fun x _ => ?_) fun s b' hs hb hl => ?_)
  · refine Code.wp_bind.2 (Code.wp_get.2 (Code.wp_bind.2 (cu_view hr (fun x _ => ?_) fun s b' hs hb hl => ?_)))
    · exact ⟨.refl b, .refl b, rfl, rfl⟩
    · simp only [hs, ne_eq, not_false_eq_true, if_true]
      refine Code.wp_bind.2 (drop_view hr fun g hg => ?_)
      rcases hg with rfl | ⟨-, rfl⟩
      · exact ⟨hb, hl, rfl, rfl⟩
      · exact ⟨hb, hl, rfl, rfl⟩
  · simp only [hs, ne_eq, not_false_eq_true, if_true]
    exact ⟨hb, hl, rfl, rfl⟩

theorem copyFenced_view {dst src : Ptr} {size : Size} {b : VmemBackend} {v : View} (hr : v.Room 0) :
    Code.wp (view ov) (copyFenced dst src size) (Local b v fun _ g => g = v.gpu) b v := by
  refine Code.wp_bind.2 (cu_view hr (fun x _ => ?_) fun s b' hs hb hl => ?_)
  · refine Code.wp_bind.2 (cu_view hr (fun x _ => ?_) fun s b' hs hb hl => ?_)
    · exact ⟨.refl b, .refl b, rfl, rfl⟩
    · exact ⟨hb, hl, rfl, rfl⟩
  · simp only [hs, ne_eq, not_false_eq_true, if_true]
    exact ⟨hb, hl, rfl, rfl⟩

/-- Nor the copy through a mapped range. -/
theorem copyVia_view {tmp va : Ptr} {nh : Handle} {size : Size} {b : VmemBackend} {v : View} (hr : v.Room 0) :
    Code.wp (view ov) (copyVia tmp nh va size) (Local b v fun _ g => g = v.gpu) b v := by
  refine local_seq (.refl b) (.refl b) rfl (map_view hr) fun s b₁ v₁ hb₁ hl₁ hs₁ hg₁ => ?_
  have hr₁ : v₁.Room 0 := room_congr hr hs₁ (by rw [hg₁])
  split
  · refine local_seq hb₁ hl₁ hs₁ (copyFenced_view hr₁) fun s b₂ v₂ hb₂ hl₂ hs₂ hg₂ => ?_
    have hr₂ : v₂.Room 0 := room_congr hr hs₂ (by rw [hg₂, hg₁])
    refine Code.wp_bind.2 (drop_view hr₂ fun g hg => ?_)
    rcases hg with rfl | ⟨-, rfl⟩
    · exact ⟨hb₂, hl₂, hs₂, hg₂.trans hg₁⟩
    · exact ⟨hb₂, hl₂, hs₂, hg₂.trans hg₁⟩
  · exact ⟨hb₁, hl₁, hs₁, hg₁⟩

/-- The copy leaves the copies and every range that was reserved before. -/
theorem copyInto_view {va : Ptr} {nh : Handle} {size : Size} {b : VmemBackend} {v : View} (hr : v.Room 0) :
    Code.wp (view ov) (copyInto nh va size)
      (Local b v fun _ g => g.copies = v.gpu.copies ∧ KeepsReserved v.gpu g) b v := by
  refine Code.wp_bind.2 (Code.wp_get.2 (Code.wp_bind.2 (cu_view hr (fun tmp hf => ?_) fun s b' hs hb hl => ?_)))
  · have hf : v.gpu.reserved[tmp]? = none := hf
    have hkeep : KeepsReserved v.gpu { v.gpu with reserved := v.gpu.reserved.insert tmp size } := by
      intro va' h
      simp only [Std.ExtTreeMap.getElem?_insert]
      split
      · rfl
      · exact h
    have hkeep' : KeepsReserved v.gpu { v.gpu with reserved := (v.gpu.reserved.insert tmp size).erase tmp } := by
      intro va' h
      rw [OrdMap.erase_insert _ hf]
      exact h
    simp only [if_true]
    refine local_seq (v := { v with gpu := _ }) (.refl b) (.refl b) rfl (copyVia_view (room_congr hr rfl (le_refl _))) ?_
    intro s b₁ v₁ hb₁ hl₁ hs₁ hg₁
    split
    · refine Code.wp_bind.2 (drop_view (room_congr hr hs₁ (by rw [hg₁]; exact le_refl _)) fun g hg => ?_)
      rw [hg₁] at hg
      rcases hg with rfl | ⟨-, rfl⟩
      · exact ⟨hb₁, hl₁, hs₁, rfl, hkeep'⟩
      · exact ⟨hb₁, hl₁, hs₁, rfl, hkeep⟩
    · refine ⟨hb₁, hl₁, hs₁, ?_⟩
      rw [hg₁]
      exact ⟨rfl, hkeep⟩
  · simp only [hs, if_false]
    refine Code.wp_bind.2 ?_
    simp only [Code.wp_pure, ne_eq, not_true_eq_false, if_false]
    exact ⟨hb, hl, rfl, rfl, fun _ h => h⟩

/-- Nor putting other memory behind a range. -/
theorem replaceBacking_view {va : Ptr} {size : Size} {old nh : Handle} {b : VmemBackend} {v : View} (hr : v.Room 0) :
    Code.wp (view ov) (replaceBacking va size old nh) (Local b v fun _ g => g = v.gpu) b v := by
  refine Code.wp_bind.2 (cu_view hr (fun x _ => ?_) fun s b' hs hb hl => ?_)
  · refine local_seq (.refl b) (.refl b) rfl (map_view hr) fun s b₁ v₁ hb₁ hl₁ hs₁ hg₁ => ?_
    split
    · exact ⟨hb₁, hl₁, hs₁, hg₁⟩
    · refine local_seq hb₁ hl₁ hs₁ (map_view (room_congr hr hs₁ (by rw [hg₁]; exact le_refl _))) ?_
      intro back b₂ v₂ hb₂ hl₂ hs₂ hg₂
      exact ⟨hb₂, hl₂, hs₂, hg₂.trans hg₁⟩
  · simp only [hs, ne_eq, not_false_eq_true, if_true]
    exact ⟨hb, hl, rfl, rfl⟩

/-- The handle of a recorded chunk is the recorded one. -/
theorem handleOf_view {va : Ptr} {r : Rec} {Q : Handle → VmemBackend → View → Prop} {b : VmemBackend} {v : View}
    (hr : b.chunks[va]? = some r) (h : Q r.h b v) : Code.wp (view ov) (handleOf va) Q b v := by
  refine Code.wp_bind.2 (Code.wp_get.2 ?_)
  simp only [hr]
  exact h

/-! ## Move -/

/-- The outcomes of a swap: the chunk has a new copy at the target and gave up its old one, or nothing changed. -/
def AfterSwap (b : VmemBackend) (v : View) (c : Chunk) (target : Loc) (r : Rec) :
    Status × Chunk → VmemBackend → View → Prop := fun res b' v' =>
  SameLink b b' ∧ v'.sock = v.sock ∧ KeepsReserved v.gpu v'.gpu ∧
    ((res.1 = .ok ∧ res.2 = { c with loc := target } ∧ (∃ nh, v.gpu.copies[nh]? = none ∧
        v'.gpu.copies = (v.gpu.copies.insert nh ⟨c.size, target⟩).erase r.h ∧
        b'.chunks = b.chunks.insert c.ptr ⟨nh, c.size, target⟩) ∧
        ∀ l, b'.used l = b.used l - (if c.loc = l then c.size else 0) + if target = l then c.size else 0) ∨
      (res.1 ≠ .ok ∧ res.2 = c ∧ b.SameMemory b' ∧ v'.gpu.copies = v.gpu.copies))

/-- The exchange moves the copy of a chunk under a new handle, or leaves the copies. -/
theorem swap_view {c : Chunk} {target : Loc} {r : Rec} {b : VmemBackend} {v : View} (hrec : b.chunks[c.ptr]? = some r)
    (hr : v.Room (if target = .device then c.size.toNat else 0)) :
    Code.wp (view ov) (swap c target) (AfterSwap b v c target r) b v := by
  have hr₀ : v.Room 0 := by
    intro fd p hp
    have h := hr fd p hp
    revert h
    cases p with
    | unconnected => exact id
    | idle t w =>
      cases w with
      | false => exact id
      | true => exact le_trans (Nat.add_le_add_left (Nat.zero_le _) _)
    | awaiting t m w =>
      cases w with
      | false => exact id
      | true => exact le_trans (Nat.add_le_add_left (Nat.zero_le _) _)
  refine Code.wp_bind.2 (handleOf_view hrec ?_)
  refine Code.wp_seq (createHandle_view hr₀) ?_
  rintro ⟨s, nh⟩ b₁ v₁ ⟨hb₁, hl₁, hs₁, ⟨hs, hfresh, hg₁⟩ | ⟨hs, hg₁⟩⟩
  · simp only [show s = .ok from hs, ne_eq, not_true_eq_false, if_false]
    -- from here on the copies are the old ones and the new one
    have hroom : ∀ v' : View, v'.sock = v.sock → v'.gpu.copies = v.gpu.copies.insert nh ⟨c.size, target⟩ → v'.Room 0 := by
      intro v' hs' hc' fd p hp
      rw [hs'] at hp
      have hbytes : v'.gpu.bytes .device = v.gpu.bytes .device + if target = .device then c.size.toNat else 0 := by
        rw [← bytes_insert hfresh ⟨c.size, target⟩ .device]
        simp only [Gpu.bytes, hc']
      rw [hbytes]
      exact hr fd p hp
    have hfail : ∀ (s' : Status) (b' : VmemBackend) (v' : View), s' ≠ .ok → b.SameMemory b' → SameLink b b' →
        v'.sock = v.sock → v'.gpu.copies = v.gpu.copies.insert nh ⟨c.size, target⟩ → KeepsReserved v.gpu v'.gpu →
        Code.wp (view ov) (do drop (.release nh); pure (s', c)) (AfterSwap b v c target r) b' v' := by
      intro s' b' v' hs' hb' hl' hsock hcop hkeep
      refine Code.wp_bind.2 (drop_view (hroom v' hsock hcop) fun g hg => ?_)
      rcases hg with rfl | ⟨hno, -⟩
      · refine ⟨hl', hsock, hkeep, .inr ⟨hs', rfl, hb', ?_⟩⟩
        simp [Gpu.after, hcop, OrdMap.erase_insert _ hfresh]
      · exact absurd rfl (hno nh)
    have hcop₁ : v₁.gpu.copies = v.gpu.copies.insert nh ⟨c.size, target⟩ := by rw [hg₁]
    refine Code.wp_seq (copyInto_view (hroom v₁ hs₁ hcop₁)) ?_
    rintro s₂ b₂ v₂ ⟨hb₂, hl₂, hs₂, hcop₂, hkeep₂⟩
    have hcop₂ : v₂.gpu.copies = v.gpu.copies.insert nh ⟨c.size, target⟩ := hcop₂.trans hcop₁
    have hkeep₂ : KeepsReserved v.gpu v₂.gpu := by
      intro va h
      exact hkeep₂ va (by rw [hg₁]; exact h)
    by_cases hok : s₂ = .ok
    · subst hok
      simp only [if_true]
      refine Code.wp_seq (replaceBacking_view (hroom v₂ (hs₂.trans hs₁) hcop₂)) ?_
      rintro s₃ b₃ v₃ ⟨hb₃, hl₃, hs₃, hg₃⟩
      have hsame := (hb₁.trans hb₂).trans hb₃
      have hlink := (hl₁.trans hl₂).trans hl₃
      have hsock : v₃.sock = v.sock := hs₃.trans (hs₂.trans hs₁)
      have hcop₃ : v₃.gpu.copies = v.gpu.copies.insert nh ⟨c.size, target⟩ := by rw [hg₃, hcop₂]
      split
      · exact hfail s₃ b₃ v₃ ‹_› hsame hlink hsock hcop₃ (hg₃ ▸ hkeep₂)
      · refine Code.wp_bind.2 (drop_view (hroom v₃ hsock hcop₃) fun g hg => ?_)
        rcases hg with rfl | ⟨hno, -⟩
        · refine ⟨⟨?_, ?_⟩, hsock, hg₃ ▸ hkeep₂, .inl ⟨rfl, rfl, ⟨nh, hfresh, ?_, ?_⟩, fun l => ?_⟩⟩
          · simp [hlink.link]
          · simp [hlink.fd]
          · simp [Gpu.after, hcop₃]
          · simp [hsame.chunks]
          · have hu := hsame.used
            by_cases h₁ : c.loc = l <;> by_cases h₂ : target = l
            · subst h₁
              simp [hu, h₂]
            · simp [hu, h₁, h₂]
            · subst h₂
              simp [hu, h₁]
            · simp [hu, h₁, h₂]
        · exact absurd rfl (hno r.h)
    · simp only [hok, if_false]
      refine Code.wp_bind.2 ?_
      simp only [Code.wp_pure, hok, not_false_eq_true, if_true]
      exact hfail s₂ b₂ v₂ hok (hb₁.trans hb₂) (hl₁.trans hl₂) (hs₂.trans hs₁) hcop₂ hkeep₂
  · simp only [show s ≠ .ok from hs, ne_eq, not_false_eq_true, if_true]
    exact ⟨hl₁, hs₁, fun va h => by rw [hg₁]; exact h, .inr ⟨hs, rfl, hb₁, by rw [hg₁]⟩⟩

/-! ## Between calls -/

/-- The backend's records, the chunks its program holds and its part of the driver agree. -/
structure Memory (b : VmemBackend) (held : OrdMap Ptr Chunk) (g : Gpu) : Prop where
  reserved : ∀ (va : Ptr) (r : Rec), b.chunks[va]? = some r → g.reserved[va]?.isSome
  backed : Backed b.chunks g
  used : ∀ l, b.used l = OrdMap.total b.chunks fun _ r => if r.loc = l then r.size else 0
  held : ∀ va : Ptr, held[va]? = b.chunks[va]?.map fun r => ⟨va, r.size, r.loc⟩

/-- What holds between two calls: the memory agrees, and so does the broker, if there is a link. -/
structure Boundary (ov : Size) (b : VmemBackend) (held : OrdMap Ptr Chunk) (v : View) : Prop where
  linked : Linked (Agree ov b) b v
  memory : Memory b held v.gpu

/-- Records and copies that are the same match the same chunks. -/
theorem Memory.of_same {b b' : VmemBackend} {held : OrdMap Ptr Chunk} {g g' : Gpu} (h : Memory b held g)
    (hb : b.SameMemory b') (hc : g'.copies = g.copies) (hr : KeepsReserved g g') : Memory b' held g' := by
  refine ⟨?_, ?_, ?_, ?_⟩ <;> simp only [hb.chunks, hb.used]
  · exact fun va r hva => hr va (h.reserved va r hva)
  · intro j c hj
    rw [hc] at hj
    exact h.backed j c hj
  · exact h.used
  · exact h.held

/-- The record covers the copies of a client whose memory agrees. -/
theorem Memory.room {b : VmemBackend} {held : OrdMap Ptr Chunk} {v : View} {mv : Option Move} {M : OrdMap Ptr ChunkRec} {n : ℕ}
    (h : Memory b held v.gpu) (hl : Linked (fun t _ => t.Is ov M mv) b v)
    (hM : tableBytes (entries b.chunks) .device + n ≤ tableBytes M .device + moveBytes M mv .device) : v.Room n := by
  refine hl.room fun t ht => ?_
  have hle := h.backed.bytes_le .device
  rw [Tenant.bytes, ht.chunks, ht.moving]
  omega

/-- Between two calls every copy has its place. -/
theorem Boundary.room {b : VmemBackend} {held : OrdMap Ptr Chunk} {v : View} (h : Boundary ov b held v) : v.Room 0 :=
  Memory.room h.memory h.linked (by simp)

/-- What the broker should record depends on the records only. -/
theorem Agree.of_same {b b' : VmemBackend} (hb : b.SameMemory b') : Agree ov b' = Agree ov b := by
  funext t w
  simp only [Agree, hb.chunks]

/-- After an exchange the records, the copies and the chunks still match. -/
theorem Memory.moved {b b' : VmemBackend} {held : OrdMap Ptr Chunk} {g g' : Gpu} {va : Ptr} {r : Rec} {target : Loc}
    {nh : Handle} (h : Memory b held g) (hr : b.chunks[va]? = some r) (hk : KeepsReserved g g')
    (hcop : g'.copies = (g.copies.insert nh ⟨r.size, target⟩).erase r.h)
    (hch : b'.chunks = b.chunks.insert va ⟨nh, r.size, target⟩)
    (hu : ∀ l, b'.used l = b.used l - (if r.loc = l then r.size else 0) + if target = l then r.size else 0) :
    Memory b' (held.insert va ⟨va, r.size, target⟩) g' := by
  refine ⟨fun va' r' hr' => ?_, ?_, fun l => ?_, fun va' => ?_⟩
  · rw [hch] at hr'
    simp only [Std.ExtTreeMap.getElem?_insert, Std.compare_eq_iff_eq] at hr'
    split at hr'
    · rename_i hva
      subst hva
      exact hk va (h.reserved va r hr)
    · exact hk va' (h.reserved va' r' hr')
  · intro j c hj
    rw [hcop] at hj
    rw [hch]
    exact h.backed.replace hr nh r.size target j c hj
  · rw [hu, hch, OrdMap.total_insert, h.used l, OrdMap.total_of_getElem? hr]
    ring
  · rw [hch]
    simp only [Std.ExtTreeMap.getElem?_insert, Std.compare_eq_iff_eq]
    split
    · rename_i hva
      subst hva
      rfl
    · exact h.held va'

/-- A move that is reported leaves the broker with the same record as the client, whether it succeeds or fails. -/
theorem swapReported_view {b : VmemBackend} {held : OrdMap Ptr Chunk} {v : View} {va : Ptr} {r : Rec} {target : Loc}
    {asked : Bool} (hm : Memory b held v.gpu) (hr : b.chunks[va]? = some r)
    (hl : (asked = true ∧ Linked (fun t _ => t.Is ov (entries b.chunks) (some ⟨va, target.field⟩)) b v) ∨
      (asked = false ∧ Unlinked b v)) :
    Code.wp (view ov) (swapReported ⟨va, r.size, r.loc⟩ target asked)
      (fun res b' v' => Boundary ov b' (held.insert va res.2) v') b v := by
  have hent : (entries b.chunks)[va]? = some r.entry := by simp [hr]
  have hmove : moveBytes (entries b.chunks) (some ⟨va, target.field⟩) .device =
      if target = .device then r.size.toNat else 0 := by
    simp [moveBytes, hr, Rec.entry]
  have hroom : v.Room (if target = .device then r.size.toNat else 0) := by
    rcases hl with ⟨-, hl⟩ | ⟨-, hun⟩
    · exact hm.room hl (by rw [hmove])
    · exact hun.room _
  refine Code.wp_seq (swap_view hr hroom) ?_
  rintro res b' v' ⟨hlink, hsock, hkeep, hout⟩
  -- the memory agrees whether the swap went through or not
  have hmem : Memory b' (held.insert va res.2) v'.gpu := by
    rcases hout with ⟨-, hc, ⟨nh, -, hcop, hch⟩, hu⟩ | ⟨-, hc, hsame, hcop⟩
    · rw [hc]
      exact hm.moved hr hkeep hcop hch hu
    · have hheld : held.insert va ⟨va, r.size, r.loc⟩ = held := OrdMap.insert_of_getElem? (by simp [hm.held va, hr])
      rw [hc, hheld]
      exact hm.of_same hsame hcop hkeep
  rcases hl with ⟨rfl, hl⟩ | ⟨rfl, hun⟩
  · simp only [if_true]
    have hl' := hl.of_same hlink hsock
    have hroom' : v'.Room 0 := by
      refine hl'.room fun t ht => ?_
      have hbytes : v'.gpu.bytes .device ≤ v.gpu.bytes .device + if target = .device then r.size.toNat else 0 := by
        rcases hout with ⟨-, -, ⟨nh, hfresh, hcop, -⟩, -⟩ | ⟨-, -, -, hcop⟩
        · rw [← bytes_insert hfresh ⟨r.size, target⟩ .device]
          refine le_trans (le_of_eq ?_) (bytes_erase_le _ r.h _)
          simp only [Gpu.bytes, hcop]
        · refine le_trans (le_of_eq ?_) (Nat.le_add_right _ _)
          simp only [Gpu.bytes, hcop]
      have hle := hm.backed.bytes_le .device
      rw [Tenant.bytes, ht.chunks, ht.moving, hmove]
      omega
    -- the place reported is the target or the old place
    have hplace : res.2.loc.field = target.field ∨ res.2.loc.field = r.entry.loc := by
      rcases hout with ⟨-, hc, -⟩ | ⟨-, hc, -⟩
      · exact .inl (by rw [hc])
      · exact .inr (by rw [hc]; rfl)
    have hnew : entries b'.chunks = (entries b.chunks).insert va ⟨r.size, res.2.loc.field⟩ := by
      rcases hout with ⟨-, hc, ⟨nh, -, -, hch⟩, -⟩ | ⟨-, hc, hsame, -⟩
      · rw [hch, entries_insert, hc]
        rfl
      · rw [hsame.chunks, hc]
        exact (OrdMap.insert_of_getElem? hent).symm
    have hord : ∀ t : Tenant, t.Is ov (entries b.chunks) (some ⟨va, target.field⟩) →
        t.Orderly { type := .moveDone, loc := res.2.loc.field, ptr := va } := by
      intro t ht
      exact ⟨r.entry, target.field, by rw [ht.chunks, hent], ht.moving, hplace⟩
    refine Code.wp_seq (report_view (R := Agree ov b') rfl hl' hroom' (fun t _ ht => hord t ht) fun t _ ht => ?_) ?_
    · have hc : t.chunks[va]? = some r.entry := by rw [ht.chunks, hent]
      obtain ⟨hk, hmv, hh⟩ := @Tenant.applied_moveDone ov t
        { type := .moveDone, loc := res.2.loc.field, ptr := va } _ _ rfl hc ht.moving
      refine ⟨hh.trans ht.hello, hk.trans ?_, hmv, (hord t ht).sound ht.sound rfl⟩
      rw [ht.chunks, hnew]
      rfl
    · rintro _ b'' v'' ⟨hb, hg, hl''⟩
      refine ⟨?_, hmem.of_same hb (by rw [hg]) fun va h => by rw [hg]; exact h⟩
      rw [Agree.of_same hb]
      exact hl''
  · have hun' : Unlinked b' v' := by
      refine ⟨?_, ?_, ?_⟩
      · rw [hlink.link]
        exact hun.1
      · rw [hlink.fd]
        exact hun.2.1
      · rw [hsock]
        exact hun.2.2
    exact ⟨hun'.linked, hmem⟩

/-- `move` leads from one state between calls to the next. -/
theorem move_view {b : VmemBackend} {held : OrdMap Ptr Chunk} {v : View} {c : Chunk} {target : Loc}
    (h : Boundary ov b held v) (hc : held[c.ptr]? = some c) :
    Code.wp (view ov) (move c target) (fun res b' v' => Boundary ov b' (held.insert c.ptr res.2) v') b v := by
  have hrec := hc
  rw [h.memory.held] at hrec
  obtain ⟨r, hr, hcr⟩ := Option.map_eq_some_iff.1 hrec
  obtain ⟨va, size, loc⟩ := c
  cases hcr
  simp only [move]
  split
  · rw [Code.wp_pure, OrdMap.insert_of_getElem? hc]
    exact h
  · rename_i hne
    refine Code.wp_seq (maybeReconnect_view h.linked h.room) ?_
    rintro _ b₁ v₁ ⟨hb₁, hg₁, hl₁⟩
    have hm₁ : Memory b₁ held v₁.gpu := h.memory.of_same hb₁ (by rw [hg₁]) fun va h => by rw [hg₁]; exact h
    have hr₁ : b₁.chunks[va]? = some r := by rw [hb₁.chunks, hr]
    rw [← Agree.of_same hb₁] at hl₁
    have hroom₁ : v₁.Room 0 := Boundary.room ⟨hl₁, hm₁⟩
    refine Code.wp_bind.2 (Code.wp_get.2 ?_)
    split
    · have hent : ∀ t w, Agree ov b₁ t w → t.chunks[va]? = some r.entry := by
        intro t w ht
        simp [ht.chunks, hr₁]
      have hloc : r.entry.loc ≠ target.field := by
        intro he
        apply hne
        cases hrl : r.loc <;> cases target <;> simp_all [Rec.entry, Loc.field]
      have hord : ∀ t w, Agree ov b₁ t w → t.Orderly { type := .move, loc := target.field, ptr := va } :=
        fun t w ht => ⟨⟨r.entry, hent t w ht, hloc⟩, ht.moving⟩
      refine Code.wp_bind.2 (request_view rfl hl₁ hroom₁ hord ?_ ?_)
      · intro rep fd t w t' hlink hfd ht hans
        obtain ⟨hok, hno⟩ := Tenant.answers_move rfl (hent t w ht) hloc ht.moving hans
        have hsound : t'.Sound ov := by
          obtain ⟨g, hg, -, rfl⟩ := hans
          exact (hord t w ht).sound ht.sound hg
        dsimp only
        split
        · rename_i hs
          obtain rfl := hno hs
          have hheld : held.insert va ⟨va, r.size, r.loc⟩ = held := OrdMap.insert_of_getElem? hc
          simp only [Code.wp_bind, Code.wp_modify, Code.wp_pure]
          rw [hheld]
          exact ⟨.inl ⟨hlink, fd, t', w, hfd, rfl, ht⟩, hm₁.of_same ⟨rfl, rfl, rfl⟩ rfl fun _ h => h⟩
        · rename_i hs
          obtain ⟨hk, hmv, hh⟩ := hok (by simpa using hs)
          refine swapReported_view (v := { v₁ with sock := _ }) hm₁ hr₁ (.inl ⟨rfl, .inl ⟨hlink, fd, t', w, hfd, rfl, ?_⟩⟩)
          exact ⟨hh.trans ht.hello, hk.trans ht.chunks, hmv, hsound⟩
      · rintro b₂ v₂ ⟨hb₂, rfl, hun⟩
        have hr₂ : b₂.chunks[va]? = some r := by rw [hb₂.chunks, hr₁]
        exact swapReported_view (hm₁.of_same hb₂ rfl fun _ h => h) hr₂ (.inr ⟨rfl, hun⟩)
    · rename_i hlink
      rcases hl₁ with ⟨hl, -⟩ | hun
      · exact absurd hl hlink
      · exact swapReported_view hm₁ hr₁ (.inr ⟨rfl, hun⟩)

/-! ## Create -/

/-- The record covers the copies and the new one while a chunk is being created. -/
theorem counted_room {b b' : VmemBackend} {g : Gpu} {v : View} {va : Ptr} {size : Size} {l : Loc} {counted : Bool}
    (hb : Backed b.chunks g) (hva : b.chunks[va]? = none) (hl : Linked (Counted ov b va size l counted) b' v)
    (hle : v.gpu.bytes .device ≤ g.bytes .device + if l = .device then size.toNat else 0) : v.Room 0 := by
  refine hl.room fun t ⟨_, ht⟩ => ?_
  have hn : (entries b.chunks)[va]? = none := by simp [hva]
  have htable := hb.bytes_le .device
  have hshare : ChunkRec.share BitVec.toNat ⟨size, l.field⟩ .device = if l = .device then size.toNat else 0 := by
    cases l <;> rfl
  rw [Tenant.bytes, ht.chunks, ht.moving, Tenant.tableBytes_insert, OrdMap.erase_of_getElem? hn, hshare]
  omega

/-- The outcomes of making the memory of a chunk: there is a new copy where the broker counts it, or no copy. -/
def AfterCreate (ov : Size) (b : VmemBackend) (v : View) (va : Ptr) (size : Size) (counted : Bool) :
    Status × Loc × Handle → VmemBackend → View → Prop := fun r b' v' =>
  b.SameMemory b' ∧ v'.gpu.reserved = v.gpu.reserved ∧
    ((r.1 = .ok ∧ v.gpu.copies[r.2.2]? = none ∧ v'.gpu.copies = v.gpu.copies.insert r.2.2 ⟨size, r.2.1⟩ ∧
        Linked (Counted ov b va size r.2.1 counted) b' v') ∨
      (r.1 ≠ .ok ∧ v'.gpu.copies = v.gpu.copies ∧ ∃ l, Linked (Counted ov b va size l counted) b' v'))

/-- The handle of a new chunk is made where the broker counted it, or the broker is told. -/
theorem createAt_view {b : VmemBackend} {v : View} {va : Ptr} {size : Size} {loc : Loc} {counted : Bool}
    (hb : Backed b.chunks v.gpu) (hva : b.chunks[va]? = none) (hl : Linked (Counted ov b va size loc counted) b v) :
    Code.wp (view ov) (createAt va size loc counted) (AfterCreate ov b v va size counted) b v := by
  refine Code.wp_seq (createHandle_view (counted_room hb hva hl (Nat.le_add_right _ _))) ?_
  rintro ⟨s, h⟩ b₁ v₁ ⟨hb₁, hl₁, hs₁, hout⟩
  by_cases hfull : s = .noMemory ∧ loc = .device
  · obtain ⟨rfl, rfl⟩ := hfull
    rcases hout with ⟨hs, -⟩ | ⟨-, hg₁⟩
    · cases hs
    · simp only [and_self, if_true]
      have hlink₁ : Linked (Counted ov b va size .device counted) b₁ v₁ := hl.of_same hl₁ hs₁
      refine Code.wp_seq (createHandle_view (counted_room hb hva hlink₁ (by rw [hg₁]; exact Nat.le_add_right _ _))) ?_
      rintro ⟨s, h⟩ b₂ v₂ ⟨hb₂, hl₂, hs₂, ⟨hs, hfresh, hg₂⟩ | ⟨hs, hg₂⟩⟩
      · obtain rfl : s = .ok := hs
        have hlink₂ := hlink₁.of_same hl₂ hs₂
        rw [hg₁] at hfresh hg₂
        cases counted with
        | false =>
          refine ⟨hb₁.trans hb₂, by rw [hg₂], .inl ⟨rfl, hfresh, by rw [hg₂], hlink₂.mono fun t w ht => ?_⟩⟩
          cases ht.1
        | true =>
          simp only [and_self, if_true]
          have hroom : v₂.Room 0 := by
            refine counted_room hb hva hlink₂ ?_
            rw [hg₂, bytes_insert hfresh]
            simp
          have hentry : ((entries b.chunks).insert va ⟨size, Loc.field .device⟩)[va]? = some ⟨size, .device⟩ := by
            simp [Loc.field]
          refine Code.wp_seq (report_view (R := Counted ov b va size .host true) rfl hlink₂ hroom ?_ ?_) ?_
          · rintro t w ⟨-, ht⟩
            exact ⟨⟨size, .device⟩, by rw [ht.chunks, hentry], rfl⟩
          · rintro t w ⟨-, ht⟩
            have hc : t.chunks[va]? = some ⟨size, .device⟩ := by rw [ht.chunks, hentry]
            obtain ⟨hk, hmv, hh⟩ := @Tenant.applied_allocFail ov t
              { type := .allocFail, loc := Loc.field .host, ptr := va } _ rfl hc rfl
            have hord : t.Orderly { type := .allocFail, loc := Loc.field .host, ptr := va } := ⟨_, hc, rfl⟩
            refine ⟨rfl, hh.trans ht.hello, hk.trans ?_, hmv.trans ht.moving, hord.sound ht.sound rfl⟩
            rw [ht.chunks, OrdMap.insert_insert]
            rfl
          · rintro _ b₃ v₃ ⟨hb₃, hg₃, hlink₃⟩
            exact ⟨(hb₁.trans hb₂).trans hb₃, by rw [hg₃, hg₂], .inl ⟨rfl, hfresh, by rw [hg₃, hg₂], hlink₃⟩⟩
      · simp only [show s ≠ .ok from hs, false_and, if_false]
        refine ⟨hb₁.trans hb₂, by rw [hg₂, hg₁], .inr ⟨hs, by rw [hg₂, hg₁], .device, hlink₁.of_same hl₂ hs₂⟩⟩
  · simp only [hfull, if_false]
    refine ⟨hb₁, ?_, ?_⟩
    · rcases hout with ⟨-, -, hg⟩ | ⟨-, hg⟩ <;> rw [hg]
    · rcases hout with ⟨hs, hfresh, hg⟩ | ⟨hs, hg⟩
      · exact .inl ⟨hs, hfresh, by rw [hg], hl.of_same hl₁ hs₁⟩
      · exact .inr ⟨hs, by rw [hg], loc, hl.of_same hl₁ hs₁⟩

/-- So is one that is mapped, which is given up when mapping fails. -/
theorem createMapped_view {b : VmemBackend} {v : View} {va : Ptr} {size : Size} {loc : Loc} {counted : Bool}
    (hb : Backed b.chunks v.gpu) (hva : b.chunks[va]? = none) (hl : Linked (Counted ov b va size loc counted) b v) :
    Code.wp (view ov) (createMapped va size loc counted) (AfterCreate ov b v va size counted) b v := by
  refine Code.wp_seq (createAt_view hb hva hl) ?_
  rintro ⟨s, loc', h⟩ b₁ v₁ ⟨hb₁, hr₁, ⟨hs, hfresh, hc₁, hlink₁⟩ | ⟨hs, hc₁, hlink₁⟩⟩
  · obtain rfl : s = .ok := hs
    have hroom : ∀ v' : View, v'.sock = v₁.sock → v'.gpu = v₁.gpu → v'.Room 0 := by
      intro v' hs' hg'
      refine room_congr (counted_room hb hva hlink₁ ?_) hs' (by rw [hg'])
      rw [← bytes_insert hfresh ⟨size, loc'⟩ .device]
      simp only [Gpu.bytes, hc₁, le_refl]
    simp only [if_true]
    refine Code.wp_seq (map_view (hroom v₁ rfl rfl)) ?_
    rintro s b₂ v₂ ⟨hb₂, hl₂, hs₂, hg₂⟩
    have hlink₂ := hlink₁.of_same hl₂ hs₂
    split
    · rename_i hne
      refine Code.wp_bind.2 (drop_view (hroom v₂ hs₂ hg₂) fun g hg => ?_)
      rcases hg with rfl | ⟨hno, -⟩
      · refine ⟨hb₁.trans hb₂, ?_, .inr ⟨hne, ?_, loc', hlink₂⟩⟩
        · simp [Gpu.after, hg₂, hr₁]
        · simp [Gpu.after, hg₂, hc₁, OrdMap.erase_insert _ hfresh]
      · exact absurd rfl (hno h)
    · rename_i hok
      refine ⟨hb₁.trans hb₂, by rw [hg₂, hr₁], .inl ⟨by simpa using hok, hfresh, by rw [hg₂, hc₁], hlink₂⟩⟩
  · simp only [show s ≠ .ok from hs, if_false]
    exact ⟨hb₁, hr₁, .inr ⟨hs, hc₁, hlink₁⟩⟩

/-- A chunk that failed is not counted any more. -/
theorem unplace_view {b b₀ : VmemBackend} {v : View} {va : Ptr} {size : Size} {loc l : Loc} {counted : Bool}
    (hb : Backed b₀.chunks v.gpu) (hva : b₀.chunks[va]? = none) (hl : Linked (Counted ov b₀ va size l counted) b v) :
    Code.wp (view ov) (unplace va loc counted)
      (fun _ b' v' => b.SameMemory b' ∧ v'.gpu = v.gpu ∧ Linked (Agree ov b₀) b' v') b v := by
  unfold unplace
  split
  · have hentry : ((entries b₀.chunks).insert va ⟨size, l.field⟩)[va]? = some ⟨size, l.field⟩ := by simp
    have hn : (entries b₀.chunks)[va]? = none := by simp [hva]
    have hord : ∀ t w, Counted ov b₀ va size l counted t w → t.Orderly { type := .free, loc := loc.field, ptr := va } := by
      rintro t w ⟨-, ht⟩
      refine ⟨⟨_, by rw [ht.chunks, hentry]⟩, fun mv hmv => ?_⟩
      rw [ht.moving] at hmv
      cases hmv
    refine Code.wp_seq (report_view (R := Agree ov b₀) rfl hl (counted_room hb hva hl (Nat.le_add_right _ _)) hord ?_) ?_
    · intro t w h
      have ht := h.2
      obtain ⟨⟨c, hc⟩, hne⟩ := hord t w h
      obtain ⟨hk, hmv, hh⟩ := @Tenant.applied_free ov t
        { type := .free, loc := loc.field, ptr := va } _ rfl hc hne
      refine ⟨hh.trans ht.hello, hk.trans ?_, hmv.trans ht.moving, (hord t w h).sound ht.sound rfl⟩
      rw [ht.chunks, OrdMap.erase_insert _ hn]
    · exact fun _ b' v' h => h
  · rename_i hc
    exact ⟨.refl b, rfl, hl.mono fun t w h => absurd h.1 hc⟩

end ViewAux

end Vmem
