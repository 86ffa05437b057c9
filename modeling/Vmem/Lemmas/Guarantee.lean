import Vmem.Driver

/-!
# What the backend's functions leave in the driver

One lemma per function of the backend over the driver of `Vmem.Driver`, for every result of every checked call. The functions of
the link are `Quiet`: they touch neither the driver nor the chunks. Of the driver's functions each lemma says what the function
leaves on success, and that a failure leaves the driver as it was.
-/

namespace Vmem

namespace GuaranteeAux

open VmemBackend

variable {β α γ : Type}

/-- A postcondition of code that keeps the chunks and their counts. -/
def Keeping (b : VmemBackend) (R : α → Cuda β → Prop) : α → VmemBackend → Cuda β → Prop :=
  fun a b' d' => b.SameMemory b' ∧ R a d'

/-- After code that keeps the records, the rest is about the same records. -/
theorem keeping_seq {x : BackendM α} {f : α → BackendM γ} {R : α → Cuda β → Prop} {Q : γ → Cuda β → Prop}
    {b₀ b : VmemBackend} {d : Cuda β} (hb : b₀.SameMemory b) (h : Code.wp (Cuda.world β) x (Keeping b R) b d)
    (hf : ∀ a b' d', b₀.SameMemory b' → R a d' → Code.wp (Cuda.world β) (f a) (Keeping b₀ Q) b' d') :
    Code.wp (Cuda.world β) (x >>= f) (Keeping b₀ Q) b d := by
  refine Code.wp_seq h ?_
  rintro a b' d' ⟨hb', hR⟩
  exact hf a b' d' (hb.trans hb') hR

/-! ## The link -/

/-- Code that touches neither the driver nor the chunks. -/
def Quiet (β : Type) (x : BackendM α) : Prop :=
  ∀ (b : VmemBackend) (d : Cuda β), Code.wp (Cuda.world β) x (Keeping b fun _ d' => d' = d) b d

theorem quiet_pure (a : α) : Quiet β (pure a : BackendM α) := by
  intro b d
  exact ⟨.refl b, rfl⟩

/-- Sequences of quiet code are quiet. -/
theorem quiet_bind {x : BackendM α} {f : α → BackendM γ} (hx : Quiet β x) (hf : ∀ a, Quiet β (f a)) :
    Quiet β (x >>= f) := by
  intro b d
  refine keeping_seq (.refl b) (hx b d) ?_
  rintro a b' d' hb rfl
  refine Code.wp_mono (hf a b' d') ?_
  rintro a' b'' d'' ⟨hb', hd⟩
  exact ⟨hb.trans hb', hd⟩

theorem quiet_get : Quiet β (get : BackendM VmemBackend) := by
  intro b d
  exact ⟨.refl b, rfl⟩

/-- An update that leaves the records is quiet. -/
theorem quiet_modify {g : VmemBackend → VmemBackend} (hg : ∀ b : VmemBackend, b.SameMemory (g b)) :
    Quiet β (modify g : BackendM PUnit) := by
  intro b d
  exact ⟨hg b, rfl⟩

/-- Only the driver calls touch the driver. -/
theorem quiet_ask {i : Op} (hi : ∀ (d : Cuda β) (r : i.Answer) (d' : Cuda β), (Cuda.world β).answers i d r d' → d' = d) :
    Quiet β (ask i) := by
  intro b d
  refine ⟨trivial, fun r d' h => ?_⟩
  exact ⟨.refl b, hi d r d' h⟩

/-- Closing the link is quiet. -/
theorem quiet_disconnectBroker (next : Link) : Quiet β (disconnectBroker next) := by
  refine quiet_bind (quiet_bind quiet_get fun b => ?_) fun _ => quiet_modify fun b => ⟨rfl, rfl, rfl⟩
  split
  · exact quiet_ask fun d r d' h => h
  · exact quiet_pure _

/-- Sending is quiet. -/
theorem quiet_sendMsg (m : Msg) : Quiet β (sendMsg m) := by
  refine quiet_bind quiet_get fun b => ?_
  split
  · exact quiet_pure _
  · refine quiet_bind (quiet_ask fun d r d' h => h) fun r => ?_
    split
    · exact quiet_pure _
    · refine quiet_bind (quiet_modify fun b => ⟨rfl, rfl, rfl⟩) fun _ => ?_
      exact quiet_bind (quiet_disconnectBroker _) fun _ => quiet_pure _

/-- So is sending with a reply. -/
theorem quiet_sendAndRecv (m : Msg) : Quiet β (sendAndRecv m) := by
  refine quiet_bind (quiet_sendMsg m) fun sent => ?_
  split
  · exact quiet_pure _
  · refine quiet_bind quiet_get fun b => quiet_bind (quiet_ask fun d r d' h => h) fun r => ?_
    split
    · exact quiet_pure _
    all_goals
      refine quiet_bind (quiet_modify fun b => ⟨rfl, rfl, rfl⟩) fun _ => ?_
      exact quiet_bind (quiet_disconnectBroker _) fun _ => quiet_pure _

theorem quiet_connectBroker : Quiet β connectBroker := by
  refine quiet_bind quiet_get fun b => ?_
  split
  · exact quiet_pure _
  · refine quiet_bind (quiet_ask fun d r d' h => h) fun s => ?_
    split
    · exact quiet_pure _
    · refine quiet_bind (quiet_ask fun d r d' h => h) fun r => ?_
      split
      · exact quiet_bind (quiet_ask fun d r d' h => h) fun _ => quiet_pure _
      · refine quiet_bind (quiet_ask fun d r d' h => h) fun r => ?_
        split
        · exact quiet_bind (quiet_ask fun d r d' h => h) fun _ => quiet_pure _
        · refine quiet_bind (quiet_modify fun b => ⟨rfl, rfl, rfl⟩) fun _ => ?_
          exact quiet_bind quiet_get fun b => quiet_bind (quiet_sendAndRecv _) fun _ => quiet_pure _

theorem quiet_resyncAll (cs : List (Ptr × Rec)) : Quiet β (resyncAll cs) := by
  induction cs with
  | nil => exact quiet_pure _
  | cons p cs ih => exact quiet_bind (quiet_sendMsg _) fun _ => ih

theorem quiet_reconnect : Quiet β reconnect := by
  refine quiet_bind quiet_get fun b => ?_
  split
  · exact quiet_bind (quiet_modify fun b => ⟨rfl, rfl, rfl⟩) fun _ => quiet_pure _
  · refine quiet_bind (quiet_disconnectBroker _) fun _ => quiet_bind quiet_connectBroker fun e => ?_
    split
    · exact quiet_bind (quiet_modify fun b => ⟨rfl, rfl, rfl⟩) fun _ => quiet_pure _
    · exact quiet_bind (quiet_resyncAll _) fun _ => quiet_bind quiet_get fun b => quiet_pure _

/-- So is the attempt before a decision. -/
theorem quiet_maybeReconnect : Quiet β maybeReconnect := by
  refine quiet_bind quiet_get fun b => ?_
  split
  · exact quiet_bind quiet_reconnect fun _ => quiet_pure _
  · exact quiet_pure _

/-- So is the question where a chunk goes. -/
theorem quiet_decidePlace (va : Ptr) (size : Size) : Quiet β (decidePlace va size) := by
  refine quiet_bind quiet_get fun b => ?_
  split
  · exact quiet_pure _
  · refine quiet_bind (quiet_sendAndRecv _) fun rep => ?_
    split
    · exact quiet_pure _
    · split
      · exact quiet_bind (quiet_modify fun b => ⟨rfl, rfl, rfl⟩) fun _ => quiet_pure _
      · exact quiet_pure _

/-- So is taking an allocation back. -/
theorem quiet_unplace (va : Ptr) (loc : Loc) (counted : Bool) : Quiet β (unplace va loc counted) := by
  unfold unplace
  split
  · exact quiet_bind (quiet_sendMsg _) fun _ => quiet_pure _
  · exact quiet_pure _

/-- Run quiet code first. -/
theorem quiet_seq {x : BackendM α} {f : α → BackendM γ} {Q : γ → VmemBackend → Cuda β → Prop} {b : VmemBackend} {d : Cuda β}
    (hx : Quiet β x) (hf : ∀ a b', b.SameMemory b' → Code.wp (Cuda.world β) (f a) Q b' d) :
    Code.wp (Cuda.world β) (x >>= f) Q b d := by
  refine Code.wp_seq (hx b d) ?_
  rintro a b' d' ⟨hb, rfl⟩
  exact hf a b' hb

/-! ## Driver calls -/

/-- A checked call: it succeeds with its effect, or fails and changes nothing but the error text. -/
theorem cu_wp {c : CuCall} {what : String} {Q : Status × BitVec 64 → VmemBackend → Cuda β → Prop} {b : VmemBackend}
    {d : Cuda β} (hok : ∀ v x, d.Valid c v → Q (.ok, v) b (d.after c v x))
    (hfail : ∀ s b', s ≠ .ok → b.SameMemory b' → Q (s, 0) b' d) : Code.wp (Cuda.world β) (cu c what) Q b d := by
  refine Code.wp_bind.2 ⟨trivial, fun r d' h => ?_⟩
  cases r with
  | ok v =>
    obtain ⟨hv, x, rfl⟩ := h
    exact hok v x hv
  | error e =>
    obtain rfl : d' = d := h
    refine hfail _ _ ?_ ⟨rfl, rfl, rfl⟩
    split <;> decide

/-- A run whose first call succeeds. -/
theorem runs_cu {c : CuCall} {k : Except CuError (BitVec 64) → Prog Op Op.Answer α} {d d' : Cuda β} {a : α} (v : BitVec 64)
    (x : β) (hv : d.Valid c v) (hk : Prog.Runs (Cuda.world β) (k (.ok v)) (d.after c v x) a d') :
    Prog.Runs (Cuda.world β) (.op (.cu c) k) d a d' := by
  have hanswer : (Cuda.world β).answers (.cu c) d (.ok v) (d.after c v x) := ⟨hv, x, rfl⟩
  exact .op hanswer hk

/-- A valid clean-up call. -/
theorem drop_wp {c : CuCall} {Q : Unit → VmemBackend → Cuda β → Prop} {b : VmemBackend} {d : Cuda β} (hv : d.Valid c 0)
    (h : ∀ x, Q () b (d.after c 0 x)) : Code.wp (Cuda.world β) (drop c) Q b d := by
  refine ⟨trivial, fun r d' hd => ?_⟩
  rcases hd with ⟨-, x, rfl⟩ | ⟨hn, -⟩
  · exact h x
  · exact absurd hv hn

/-- A clean-up call whose outcome does not matter. -/
theorem drop_wp_any {c : CuCall} {Q : Unit → VmemBackend → Cuda β → Prop} {b : VmemBackend} {d : Cuda β}
    (h : ∀ d', Q () b d') : Code.wp (Cuda.world β) (drop c) Q b d := by
  refine ⟨trivial, fun r d' _ => ?_⟩
  exact h d'

/-- `chunks_.at(va).h` of a live chunk. -/
theorem handleOf_wp {va : Ptr} {r : Rec} {Q : Handle → VmemBackend → Cuda β → Prop} {b : VmemBackend} {d : Cuda β}
    (hr : b.chunks[va]? = some r) (h : Q r.h b d) : Code.wp (Cuda.world β) (handleOf va) Q b d := by
  refine Code.wp_bind.2 ?_
  simp only [Code.wp_get, hr]
  exact h

/-- Writing to memory leaves the reservations. -/
@[simp] theorem write_reservations (d : Cuda β) (h : Handle) (x : β) : (d.write h x).reservations = d.reservations := by
  unfold Cuda.write
  split <;> rfl

/-- Writing to memory leaves the mappings. -/
@[simp] theorem write_mappings (d : Cuda β) (h : Handle) (x : β) : (d.write h x).mappings = d.mappings := by
  unfold Cuda.write
  split <;> rfl

/-- Writing to a handle replaces its contents. -/
theorem write_handles {d : Cuda β} {h : Handle} {p : Phys β} (hp : d.handles[h]? = some p) (x : β) :
    (d.write h x).handles = d.handles.insert h { p with data := x } := by
  simp [Cuda.write, hp]

/-- Writing what is there changes nothing. -/
theorem write_self {d : Cuda β} {h : Handle} {p : Phys β} (hp : d.handles[h]? = some p) : d.write h p.data = d := by
  have hh : (d.write h p.data).handles = d.handles := (write_handles hp _).trans (OrdMap.insert_of_getElem? hp)
  exact Cuda.ext (write_reservations _ _ _) hh (write_mappings _ _ _)

/-- The state with `h` mapped read/write at `va`. -/
def mapped (d : Cuda β) (va : Ptr) (size : Size) (h : Handle) : Cuda β :=
  { d with mappings := d.mappings.insert va ⟨size, h, true⟩ }

/-- `map`: mapped read/write, or nothing changed. -/
theorem map_wp {va : Ptr} {size : Size} {h : Handle} {b : VmemBackend} {d : Cuda β} (hfree : d.mappings[va]? = none) :
    Code.wp (Cuda.world β) (map va size h)
      (Keeping b fun s d' => (s = .ok ∧ d' = mapped d va size h) ∨ (s ≠ .ok ∧ d' = d)) b d := by
  refine Code.wp_bind.2 (cu_wp (fun v x _ => ?_) fun s b' hs hb => ?_)
  · have herase : ({ d with mappings := (d.mappings.insert va ⟨size, h, false⟩).erase va } : Cuda β) = d :=
      Cuda.ext rfl rfl (OrdMap.erase_insert _ hfree)
    refine Code.wp_bind.2 (Code.wp_get.2 (Code.wp_bind.2 (cu_wp (fun v x _ => ?_) fun s b' hs hb => ?_)))
    · refine ⟨.refl b, .inl ⟨rfl, ?_⟩⟩
      simp [Cuda.after, mapped, OrdMap.insert_insert]
    · simp only [hs, ne_eq, not_false_eq_true, if_true]
      refine Code.wp_bind.2 (drop_wp ⟨_, Std.ExtTreeMap.getElem?_insert_self, rfl⟩ fun x => ?_)
      exact ⟨hb, .inr ⟨hs, herase⟩⟩
  · simp only [hs, ne_eq, not_false_eq_true, if_true]
    exact ⟨hb, .inr ⟨hs, rfl⟩⟩

/-- `createHandle`: a new handle of the size at the place, or nothing changed. -/
theorem createHandle_wp {size : Size} {l : Loc} {b : VmemBackend} {d : Cuda β} :
    Code.wp (Cuda.world β) (createHandle size l)
      (Keeping b fun r d' => (r.1 = .ok ∧ d.handles[r.2]? = none ∧
        ∃ x, d' = { d with handles := d.handles.insert r.2 ⟨size, l, x⟩ }) ∨ (r.1 ≠ .ok ∧ d' = d)) b d := by
  refine Code.wp_bind.2 (Code.wp_get.2 (cu_wp (fun v x hv => ?_) fun s b' hs hb => ?_))
  · exact ⟨.refl b, .inl ⟨rfl, hv, x, rfl⟩⟩
  · exact ⟨hb, .inr ⟨hs, rfl⟩⟩

/-! ## The copy -/

/-- The new handle `nh` and the handle behind the chunk at `va`, before the copy. -/
structure Copying (d : Cuda β) (va : Ptr) (size : Size) (nh : Handle) (p q : Phys β) : Prop where
  new : d.handles[nh]? = some p
  old : ∃ h, d.mappings[va]? = some ⟨size, h, true⟩ ∧ d.handles[h]? = some q

/-- `copyFenced`: the new handle's contents may change; on success they are the chunk's. -/
theorem copyFenced_wp {tmp va : Ptr} {size : Size} {nh : Handle} {p q : Phys β} {b : VmemBackend} {d : Cuda β}
    (hc : Copying d va size nh p q) (htmp : d.mappings[tmp]? = some ⟨size, nh, true⟩) :
    Code.wp (Cuda.world β) (copyFenced tmp va size)
      (Keeping b fun s d' => ∃ x, d' = d.write nh x ∧ (s = .ok → x = q.data)) b d := by
  obtain ⟨h, hm, hq⟩ := hc.old
  have hcopy : ∀ v x, d.after (.memcpyDtoD tmp va size) v x = d.write nh q.data := by
    intro v x
    simp [Cuda.after, Cuda.contents, htmp, hm, hq]
  refine Code.wp_bind.2 (cu_wp (fun v x _ => ?_) fun s b' hs hb => ?_)
  · rw [hcopy]
    refine Code.wp_bind.2 (cu_wp (fun v x _ => ?_) fun s b' hs hb => ?_)
    · exact ⟨.refl b, q.data, rfl, fun _ => rfl⟩
    · exact ⟨hb, q.data, rfl, fun _ => rfl⟩
  · simp only [hs, ne_eq, not_false_eq_true, if_true]
    exact ⟨hb, p.data, (write_self hc.new).symm, fun h => absurd h hs⟩

/-- `copyVia`: as `copyFenced`, with the scratch mapping made and undone. -/
theorem copyVia_wp {tmp va : Ptr} {size : Size} {nh : Handle} {p q : Phys β} {b : VmemBackend} {d : Cuda β}
    (hc : Copying d va size nh p q) (htmp : d.mappings[tmp]? = none) :
    Code.wp (Cuda.world β) (copyVia tmp nh va size)
      (Keeping b fun s d' => ∃ x, d' = d.write nh x ∧ (s = .ok → x = q.data)) b d := by
  refine keeping_seq (.refl b) (map_wp htmp) ?_
  rintro s b' d' hb (⟨rfl, rfl⟩ | ⟨hs, rfl⟩)
  · obtain ⟨h, hm, hq⟩ := hc.old
    have hne : tmp ≠ va := by
      rintro rfl
      rw [htmp] at hm
      cases hm
    have hm' : (mapped d tmp size nh).mappings[va]? = some ⟨size, h, true⟩ := by
      simp [mapped, Std.ExtTreeMap.getElem?_insert, hne, hm]
    have hc' : Copying (mapped d tmp size nh) va size nh p q := ⟨hc.new, h, hm', hq⟩
    refine keeping_seq hb (copyFenced_wp hc' Std.ExtTreeMap.getElem?_insert_self) ?_
    rintro s b'' d'' hb' ⟨x, rfl, hx⟩
    have hlive : ((mapped d tmp size nh).write nh x).mappings[tmp]? = some ⟨size, nh, true⟩ := by
      rw [write_mappings]
      exact Std.ExtTreeMap.getElem?_insert_self
    refine Code.wp_bind.2 (drop_wp ⟨_, hlive, rfl⟩ fun y => ⟨hb', x, ?_, hx⟩)
    refine Cuda.ext ?_ ?_ ?_
    · simp [Cuda.after, mapped]
    · rw [write_handles hc.new]
      exact write_handles hc'.new x
    · simp [Cuda.after, mapped, OrdMap.erase_insert _ htmp]
  · simp only [hs, if_false]
    exact ⟨hb, p.data, (write_self hc.new).symm, fun h => absurd h hs⟩

/-- The reservations are ranges apart from each other, and every mapping covers a reservation of its own. -/
structure Sane (d : Cuda β) : Prop where
  range : ∀ (va : Ptr) (s : Size), d.reservations[va]? = some s → va ≠ 0 ∧ s ≠ 0 ∧ va.toNat + s.toNat ≤ 2 ^ 64
  apart : ∀ (va va' : Ptr) (s s' : Size), d.reservations[va]? = some s → d.reservations[va']? = some s' → va ≠ va' →
    Apart va s va' s'
  based : ∀ (va : Ptr) (m : Mapping), d.mappings[va]? = some m → d.reservations[va]? = some m.size

/-- The base of a fresh range is not reserved yet. -/
theorem Sane.fresh {d : Cuda β} (hd : Sane d) {size align : Size} {va : Ptr} (hv : d.Valid (.reserve size align) va) :
    d.reservations[va]? = none := by
  obtain ⟨hsize, -, -, hapart⟩ := hv
  cases hs : d.reservations[va]? with
  | none => rfl
  | some s =>
    have h0 : 0 < size.toNat := BitVec.toNat_pos_of_ne_zero hsize
    have h1 : 0 < s.toNat := BitVec.toNat_pos_of_ne_zero (hd.range va s hs).2.1
    rcases hapart va s hs with h | h <;> omega

/-- Nothing is mapped where nothing is reserved. -/
theorem Sane.unmapped {d : Cuda β} (hd : Sane d) {va : Ptr} (h : d.reservations[va]? = none) : d.mappings[va]? = none := by
  cases hm : d.mappings[va]? with
  | none => rfl
  | some m => simp [hd.based va m hm] at h

/-- `copyInto`: only the new handle's contents may change; on success they are the chunk's. The scratch range is gone. -/
theorem copyInto_wp {va : Ptr} {size : Size} {nh : Handle} {p q : Phys β} {b : VmemBackend} {d : Cuda β} (hd : Sane d)
    (hc : Copying d va size nh p q) :
    Code.wp (Cuda.world β) (copyInto nh va size)
      (Keeping b fun s d' => ∃ x, d' = d.write nh x ∧ (s = .ok → x = q.data)) b d := by
  refine Code.wp_bind.2 (Code.wp_get.2 (Code.wp_bind.2 (cu_wp (fun tmp x hv => ?_) fun s b' hs hb => ?_)))
  · have hfresh := hd.fresh hv
    have htmp : tmp ≠ 0 := hv.2.1
    have hc' : Copying (d.after (.reserve size b.gran) tmp x) va size nh p q := ⟨hc.new, hc.old⟩
    simp only [if_true]
    refine keeping_seq (.refl b) (copyVia_wp hc' (hd.unmapped hfresh)) ?_
    rintro s b' d' hb ⟨x, rfl, hx⟩
    simp only [htmp, ne_eq, not_false_eq_true, if_true]
    refine Code.wp_bind.2 (drop_wp ⟨?_, ?_⟩ fun y => ⟨hb, x, ?_, hx⟩)
    · simp [Cuda.after]
    · intro va' m hm
      rw [write_mappings] at hm
      exact hv.2.2.2 va' m.size (hd.based va' m hm)
    · refine Cuda.ext ?_ ?_ ?_
      · simp [Cuda.after, OrdMap.erase_insert _ hfresh]
      · rw [write_handles hc.new]
        exact write_handles hc'.new x
      · simp [Cuda.after]
  · simp only [hs, if_false]
    refine Code.wp_bind.2 ?_
    simp only [Code.wp_pure, ne_eq, not_true_eq_false, if_false]
    exact ⟨hb, p.data, (write_self hc.new).symm, fun h => absurd h hs⟩

/-! ## The swap -/

/-- `replaceBacking`: the new handle is mapped in place of the old one, or nothing changed, or the result is `Fatal`. -/
theorem replaceBacking_wp {va : Ptr} {size : Size} {old nh : Handle} {b : VmemBackend} {d : Cuda β}
    (hm : d.mappings[va]? = some ⟨size, old, true⟩) :
    Code.wp (Cuda.world β) (replaceBacking va size old nh)
      (Keeping b fun s d' => (s = .ok ∧ d' = mapped d va size nh) ∨ s = .fatal ∨ (s ≠ .ok ∧ d' = d)) b d := by
  refine Code.wp_bind.2 (cu_wp (fun v x _ => ?_) fun s b' hs hb => ?_)
  · have hfree : (d.after (.unmap va size) v x).mappings[va]? = none := Std.ExtTreeMap.getElem?_erase_self
    refine keeping_seq (.refl b) (map_wp hfree) ?_
    rintro s b' d' hb (⟨rfl, rfl⟩ | ⟨hs, rfl⟩)
    · refine ⟨hb, .inl ⟨rfl, ?_⟩⟩
      simp [mapped, Cuda.after, OrdMap.insert_erase]
    · simp only [hs, if_false]
      refine keeping_seq hb (map_wp hfree) ?_
      rintro back b'' d'' hb' (⟨rfl, rfl⟩ | ⟨hback, rfl⟩)
      · refine ⟨hb', .inr (.inr ⟨hs, ?_⟩)⟩
        refine Cuda.ext rfl rfl ?_
        simp [mapped, Cuda.after, OrdMap.insert_erase, OrdMap.insert_of_getElem? hm]
      · simp only [hback, if_false]
        exact ⟨hb', .inr (.inl rfl)⟩
  · simp only [hs, ne_eq, not_false_eq_true, if_true]
    exact ⟨hb, .inr (.inr ⟨hs, rfl⟩)⟩

/-- A live chunk: recorded, mapped read/write and backed by the physical memory `q`. -/
structure Live (b : VmemBackend) (d : Cuda β) (c : Chunk) (r : Rec) (q : Phys β) : Prop where
  recorded : b.chunks[c.ptr]? = some r
  mapped : d.mappings[c.ptr]? = some ⟨c.size, r.h, true⟩
  backed : d.handles[r.h]? = some q

/-- The chunk `c` moved to `target` under its address: a new handle with the old contents, and the old one gone. -/
structure Moved (b : VmemBackend) (d : Cuda β) (c : Chunk) (target : Loc) (r : Rec) (q : Phys β) (b' : VmemBackend)
    (d' : Cuda β) (nh : Handle) : Prop where
  fresh : d.handles[nh]? = none
  driver : d' = { mapped d c.ptr c.size nh with
    handles := (d.handles.insert nh ⟨c.size, target, q.data⟩).erase r.h }
  chunks : b'.chunks = b.chunks.insert c.ptr ⟨nh, c.size, target⟩
  used : ∀ l, b'.used l = b.used l - (if c.loc = l then c.size else 0) + (if target = l then c.size else 0)

/-- What a move ends with: moved, `Fatal`, or nothing changed. -/
def AfterMove (b : VmemBackend) (d : Cuda β) (c : Chunk) (target : Loc) (r : Rec) (q : Phys β) :
    Status × Chunk → VmemBackend → Cuda β → Prop := fun res b' d' =>
  (res.1 = .ok ∧ res.2 = { c with loc := target } ∧ ∃ nh, Moved b d c target r q b' d' nh) ∨ res.1 = .fatal ∨
    (res.1 ≠ .ok ∧ res.2 = c ∧ d' = d ∧ b.SameMemory b')

/-- The exchange puts a copy with the same contents behind the chunk, or leaves the driver as it was. -/
theorem swap_wp {b b₀ : VmemBackend} {d : Cuda β} {c : Chunk} {target : Loc} {r : Rec} {q : Phys β} (hb₀ : b₀.SameMemory b)
    (hd : Sane d) (hl : Live b₀ d c r q) :
    Code.wp (Cuda.world β) (swap c target) (AfterMove b₀ d c target r q) b d := by
  have hrec : b.chunks[c.ptr]? = some r := by rw [hb₀.chunks, hl.recorded]
  refine Code.wp_bind.2 (handleOf_wp hrec ?_)
  refine Code.wp_seq createHandle_wp ?_
  rintro ⟨s, nh⟩ b₁ d₁ ⟨hb₁, ⟨hs, hfresh, x, rfl⟩ | ⟨hs, rfl⟩⟩
  · have hne : nh ≠ r.h := by
      rintro rfl
      rw [hl.backed] at hfresh
      cases hfresh
    have hc : Copying { d with handles := d.handles.insert nh ⟨c.size, target, x⟩ } c.ptr c.size nh ⟨c.size, target, x⟩ q := by
      refine ⟨Std.ExtTreeMap.getElem?_insert_self, r.h, hl.mapped, ?_⟩
      simp [Std.ExtTreeMap.getElem?_insert, hne, hl.backed]
    have hundo : ∀ y, (d.handles.insert nh ⟨c.size, target, x⟩).insert nh ⟨c.size, target, y⟩ =
        d.handles.insert nh ⟨c.size, target, y⟩ := fun y => OrdMap.insert_insert _ _ _ _
    simp only [show s = .ok from hs, ne_eq, not_true_eq_false, if_false]
    refine Code.wp_seq (copyInto_wp ⟨hd.range, hd.apart, hd.based⟩ hc) ?_
    rintro s₂ b₂ d₂ ⟨hb₂, y, hd₂, hy⟩
    have hd₂ : d₂ = { d with handles := d.handles.insert nh ⟨c.size, target, y⟩ } := by
      rw [hd₂]
      refine Cuda.ext (write_reservations _ _ _) ?_ (write_mappings _ _ _)
      rw [write_handles hc.new]
      exact hundo y
    subst hd₂
    have hsame : b₀.SameMemory b₂ := (hb₀.trans hb₁).trans hb₂
    -- a failure after the new handle was made releases it again
    have hfail : ∀ (s₃ : Status) (b₃ : VmemBackend), s₃ ≠ .ok → b₀.SameMemory b₃ →
        Code.wp (Cuda.world β) (do drop (.release nh); pure (s₃, c)) (AfterMove b₀ d c target r q) b₃
          { d with handles := d.handles.insert nh ⟨c.size, target, y⟩ } := by
      intro s₃ b₃ hs₃ hb₃
      refine Code.wp_bind.2 (drop_wp ⟨_, Std.ExtTreeMap.getElem?_insert_self⟩ fun z => ?_)
      exact .inr (.inr ⟨hs₃, rfl, Cuda.ext rfl (OrdMap.erase_insert _ hfresh) rfl, hb₃⟩)
    by_cases hs₂ : s₂ = .ok
    · subst hs₂
      simp only [if_true]
      refine Code.wp_seq (replaceBacking_wp hl.mapped) ?_
      rintro s₃ b₃ d₃ ⟨hb₃, ⟨rfl, rfl⟩ | rfl | ⟨hs₃, rfl⟩⟩
      · simp only [not_true_eq_false, if_false]
        have hold : ((d.handles.insert nh ⟨c.size, target, y⟩)[r.h]?) = some q := by
          simp [Std.ExtTreeMap.getElem?_insert, hne, hl.backed]
        refine Code.wp_bind.2 (drop_wp ⟨q, hold⟩ fun z => ?_)
        refine .inl ⟨rfl, rfl, nh, hfresh, ?_, ?_, fun l => ?_⟩
        · rw [hy rfl]
          rfl
        · simp [(hsame.trans hb₃).chunks]
        · have hu := (hsame.trans hb₃).used
          by_cases h₁ : c.loc = l <;> by_cases h₂ : target = l
          · subst h₁
            simp [hu, h₂]
          · simp [hu, h₁, h₂]
          · subst h₂
            simp [hu, h₁]
          · simp [hu, h₁, h₂]
      · refine Code.wp_bind.2 (drop_wp_any fun d' => ?_)
        exact .inr (.inl rfl)
      · simp only [hs₃, not_false_eq_true, if_true]
        exact hfail s₃ b₃ hs₃ (hsame.trans hb₃)
    · simp only [hs₂, if_false]
      refine Code.wp_bind.2 ?_
      simp only [Code.wp_pure, hs₂, not_false_eq_true, if_true]
      exact hfail s₂ b₂ hs₂ hsame
  · simp only [show s ≠ .ok from hs, ne_eq, not_false_eq_true, if_true]
    exact .inr (.inr ⟨hs, rfl, rfl, hb₀.trans hb₁⟩)

/-- What is so after a move depends on the records only. -/
theorem AfterMove.of_same {b b' b'' : VmemBackend} {d d' : Cuda β} {c : Chunk} {target : Loc} {r : Rec} {q : Phys β}
    {res : Status × Chunk} (h : AfterMove b d c target r q res b' d') (hb : b'.SameMemory b'') :
    AfterMove b d c target r q res b'' d' := by
  rcases h with ⟨hs, hc, nh, hm⟩ | hs | ⟨hs, hc, hd, hb'⟩
  · exact .inl ⟨hs, hc, nh, hm.fresh, hm.driver, hb.chunks.trans hm.chunks, fun l => (hb.used l).trans (hm.used l)⟩
  · exact .inr (.inl hs)
  · exact .inr (.inr ⟨hs, hc, hd, hb'.trans hb⟩)

/-- A move that is reported ends like one that is not. -/
theorem swapReported_wp {b b₀ : VmemBackend} {d : Cuda β} {c : Chunk} {target : Loc} {r : Rec} {q : Phys β} (asked : Bool)
    (hb₀ : b₀.SameMemory b) (hd : Sane d) (hl : Live b₀ d c r q) :
    Code.wp (Cuda.world β) (swapReported c target asked) (AfterMove b₀ d c target r q) b d := by
  refine Code.wp_seq (swap_wp hb₀ hd hl) fun res b' d' h => ?_
  split
  · exact quiet_seq (quiet_sendMsg _) fun _ b'' hb => h.of_same hb
  · exact h

/-- `move` to another place. -/
theorem move_wp {b : VmemBackend} {d : Cuda β} {c : Chunk} {target : Loc} {r : Rec} {q : Phys β} (hd : Sane d)
    (hl : Live b d c r q) (hne : c.loc ≠ target) :
    Code.wp (Cuda.world β) (move c target) (AfterMove b d c target r q) b d := by
  simp only [move, hne, if_false]
  refine quiet_seq quiet_maybeReconnect fun _ b₁ hb₁ => Code.wp_bind.2 (Code.wp_get.2 ?_)
  split
  · refine quiet_seq (quiet_sendAndRecv _) fun rep b₂ hb₂ => ?_
    split
    · exact swapReported_wp false (hb₁.trans hb₂) hd hl
    · split
      · exact .inr (.inr ⟨nofun, rfl, rfl, (hb₁.trans hb₂).trans ⟨rfl, rfl, rfl⟩⟩)
      · exact swapReported_wp true (hb₁.trans hb₂) hd hl
  · exact swapReported_wp false hb₁ hd hl

/-! ## Create and destroy -/

/-- `createAt`: a new handle at the place that is returned, or nothing changed. -/
theorem createAt_wp {va : Ptr} {size : Size} {loc : Loc} {counted : Bool} {b : VmemBackend} {d : Cuda β} :
    Code.wp (Cuda.world β) (createAt va size loc counted)
      (Keeping b fun r d' => (r.1 = .ok ∧ d.handles[r.2.2]? = none ∧
        ∃ x, d' = { d with handles := d.handles.insert r.2.2 ⟨size, r.2.1, x⟩ }) ∨ (r.1 ≠ .ok ∧ d' = d)) b d := by
  refine keeping_seq (.refl b) createHandle_wp ?_
  rintro ⟨s, h⟩ b₁ d₁ hb₁ hres
  split
  · rename_i hs
    have hs : s = .noMemory := hs.1
    rcases hres with ⟨hok, -⟩ | ⟨-, rfl⟩
    · rw [show s = .ok from hok] at hs
      cases hs
    · refine keeping_seq hb₁ createHandle_wp ?_
      rintro ⟨s', h'⟩ b₂ d₂ hb₂ hres
      split
      · exact quiet_seq (quiet_sendMsg _) fun _ b₃ hb₃ => ⟨hb₂.trans hb₃, hres⟩
      · exact ⟨hb₂, hres⟩
  · exact ⟨hb₁, hres⟩

/-- `createMapped`: a new handle mapped at `va`, or nothing changed. -/
theorem createMapped_wp {va : Ptr} {size : Size} {loc : Loc} {counted : Bool} {b : VmemBackend} {d : Cuda β}
    (hfree : d.mappings[va]? = none) :
    Code.wp (Cuda.world β) (createMapped va size loc counted)
      (Keeping b fun r d' => (r.1 = .ok ∧ d.handles[r.2.2]? = none ∧
        ∃ x, d' = { mapped d va size r.2.2 with handles := d.handles.insert r.2.2 ⟨size, r.2.1, x⟩ }) ∨
        (r.1 ≠ .ok ∧ d' = d)) b d := by
  refine keeping_seq (.refl b) createAt_wp ?_
  rintro ⟨s, l, h⟩ b₁ d₁ hb₁ (⟨hs, hfresh, x, rfl⟩ | ⟨hs, rfl⟩)
  · simp only [show s = .ok from hs, if_true]
    refine keeping_seq hb₁ (map_wp hfree) ?_
    rintro s' b₂ d₂ hb₂ (⟨rfl, rfl⟩ | ⟨hs', rfl⟩)
    · exact ⟨hb₂, .inl ⟨rfl, hfresh, x, rfl⟩⟩
    · simp only [hs', ne_eq, not_false_eq_true, if_true]
      refine Code.wp_bind.2 (drop_wp ⟨_, Std.ExtTreeMap.getElem?_insert_self⟩ fun y => ?_)
      exact ⟨hb₂, .inr ⟨hs', Cuda.ext rfl (OrdMap.erase_insert _ hfresh) rfl⟩⟩
  · simp only [show s ≠ .ok from hs, if_false]
    exact ⟨hb₁, .inr ⟨hs, rfl⟩⟩

/-- A chunk of `size` bytes at `c.ptr`: a new reservation, a new handle behind it, and its record. -/
structure Created (b : VmemBackend) (d : Cuda β) (size : Size) (c : Chunk) (b' : VmemBackend) (d' : Cuda β) (h : Handle) :
    Prop where
  reserved : ∃ align, d.Valid (.reserve size align) c.ptr
  fresh : d.handles[h]? = none
  sized : c.size = size
  driver : ∃ x, d' = { reservations := d.reservations.insert c.ptr size
                       handles := d.handles.insert h ⟨size, c.loc, x⟩
                       mappings := d.mappings.insert c.ptr ⟨size, h, true⟩ }
  chunks : b'.chunks = b.chunks.insert c.ptr ⟨h, size, c.loc⟩
  used : ∀ l, b'.used l = b.used l + if c.loc = l then size else 0

/-- `create`: a new chunk, or nothing changed. -/
theorem create_wp {size : Size} {out : Chunk} {b : VmemBackend} {d : Cuda β} (hd : Sane d) :
    Code.wp (Cuda.world β) (create size out)
      (fun res b' d' => (res.1 = .ok ∧ ∃ h, Created b d size res.2 b' d' h) ∨
        (res.1 ≠ .ok ∧ res.2 = out ∧ d' = d ∧ b.SameMemory b')) b d := by
  refine Code.wp_bind.2 (Code.wp_get.2 (Code.wp_bind.2 (cu_wp (fun va x hv => ?_) fun s b' hs hb => ?_)))
  · have hfresh := hd.fresh hv
    have hfree := hd.unmapped hfresh
    -- every failure frees the address range
    have hfail : ∀ (s : Status) (b' : VmemBackend), s ≠ .ok → b.SameMemory b' →
        Code.wp (Cuda.world β) (do drop (.addressFree va size); pure (s, out))
          (fun res b' d' => (res.1 = .ok ∧ ∃ h, Created b d size res.2 b' d' h) ∨
            (res.1 ≠ .ok ∧ res.2 = out ∧ d' = d ∧ b.SameMemory b')) b' (d.after (.reserve size b.gran) va x) := by
      intro s b' hs hb'
      refine Code.wp_bind.2 (drop_wp ⟨Std.ExtTreeMap.getElem?_insert_self, ?_⟩ fun y => ?_)
      · intro va' m hm
        exact hv.2.2.2 va' m.size (hd.based va' m hm)
      · exact .inr ⟨hs, rfl, Cuda.ext (OrdMap.erase_insert _ hfresh) rfl rfl, hb'⟩
    simp only [ne_eq, not_true_eq_false, if_false]
    refine quiet_seq quiet_maybeReconnect fun _ b₁ hb₁ => quiet_seq (quiet_decidePlace va size) fun p b₂ hb₂ => ?_
    split
    · exact hfail _ _ ‹_› (hb₁.trans hb₂)
    · refine Code.wp_seq (createMapped_wp hfree) ?_
      rintro ⟨s, l, h⟩ b₃ d₃ ⟨hb₃, ⟨hs, hh, y, rfl⟩ | ⟨hs, rfl⟩⟩
      · simp only [show s = .ok from hs, not_true_eq_false, if_false]
        have hsame := (hb₁.trans hb₂).trans hb₃
        refine .inl ⟨rfl, h, ⟨b.gran, hv⟩, hh, rfl, ⟨y, rfl⟩, ?_, fun l' => ?_⟩
        · simp [hsame.chunks]
        · by_cases hl : l = l'
          · subst hl
            simp [hsame.used]
          · simp [hsame.used, hl]
      · simp only [show s ≠ .ok from hs, not_false_eq_true, if_true]
        exact quiet_seq (quiet_unplace _ _ _) fun _ b₄ hb₄ => hfail s b₄ hs (((hb₁.trans hb₂).trans hb₃).trans hb₄)
  · simp only [hs, ne_eq, not_false_eq_true, if_true]
    exact .inr ⟨hs, rfl, rfl, hb⟩

/-- The chunk `c` is gone: its mapping, its handle, its reservation and its record. -/
structure Destroyed (b : VmemBackend) (d : Cuda β) (c : Chunk) (r : Rec) (b' : VmemBackend) (d' : Cuda β) : Prop where
  driver : d' = { reservations := d.reservations.erase c.ptr
                  handles := d.handles.erase r.h
                  mappings := d.mappings.erase c.ptr }
  chunks : b'.chunks = b.chunks.erase c.ptr
  used : ∀ l, b'.used l = b.used l - if c.loc = l then c.size else 0

/-- `destroy`: the chunk is gone and the caller's chunk cleared, or the result is `Fatal`. -/
theorem destroy_wp {b : VmemBackend} {d : Cuda β} {c : Chunk} {r : Rec} (hr : b.chunks[c.ptr]? = some r) :
    Code.wp (Cuda.world β) (destroy c)
      (fun res b' d' => (res.1 = .ok ∧ res.2 = {} ∧ Destroyed b d c r b' d') ∨ res.1 = .fatal) b d := by
  have hcalls : Code.wp (Cuda.world β) (destroyCalls c.ptr c.size)
      (Keeping b fun s d' => s = .ok → d' = { reservations := d.reservations.erase c.ptr
                                              handles := d.handles.erase r.h
                                              mappings := d.mappings.erase c.ptr }) b d := by
    refine Code.wp_bind.2 (cu_wp (fun v x _ => ?_) fun s b' hs hb => ?_)
    · refine Code.wp_bind.2 (handleOf_wp hr (Code.wp_bind.2 (cu_wp (fun v x _ => ?_) fun s b' hs hb => ?_)))
      · refine Code.wp_bind.2 (cu_wp (fun v x _ => ?_) fun s b' hs hb => ?_)
        · exact ⟨.refl b, fun _ => rfl⟩
        · exact ⟨hb, fun h => absurd h hs⟩
      · simp only [hs, ne_eq, not_false_eq_true, if_true]
        exact ⟨hb, fun h => absurd h hs⟩
    · simp only [hs, ne_eq, not_false_eq_true, if_true]
      exact ⟨hb, fun h => absurd h hs⟩
  refine Code.wp_seq hcalls ?_
  rintro s b' d' ⟨hb, hd⟩
  split
  · exact .inr rfl
  · rename_i hs
    refine Code.wp_bind.2 (Code.wp_modify.2 (quiet_seq (quiet_sendMsg _) fun _ b'' hb' => ?_))
    refine .inl ⟨rfl, rfl, hd (by simpa using hs), ?_, fun l => ?_⟩
    · rw [hb'.chunks]
      simp [hb.chunks]
    · rw [hb'.used]
      by_cases hl : c.loc = l
      · subst hl
        simp [hb.used]
      · simp [hb.used, hl]

end GuaranteeAux

end Vmem
