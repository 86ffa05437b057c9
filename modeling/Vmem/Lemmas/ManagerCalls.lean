import Vmem.FuzzModel

/-!
# Calls of a manager

What each call of a manager does, from a state whose records describe the driver: it returns and does what the model says (`Done`), or
it throws and changes nothing, or the driver failed late and the records are wrong (`Undone`).
-/

namespace Vmem

/-- The records describe the driver, and ranges are where they have to be. -/
structure Managed.Sound {β : Type} (x : Managed β) : Prop extends x.Describes where
  serial : x.m.serial ≠ 0
  gran : x.m.gran ≠ 0
  size : ∀ (id : BitVec 32) (c : ManagedChunk), x.m.chunks[id]? = some c → c.size ≠ 0
  ids : ∀ (id : BitVec 32) (c : ManagedChunk), x.m.chunks[id]? = some c → id.toNat < x.m.nextId.toNat
  range : ∀ (va : Ptr) (s : Size), x.m.reservations[va]? = some s → va ≠ 0 ∧ s ≠ 0 ∧ va.toNat + s.toNat < 2 ^ 64
  apart : ∀ (va va' : Ptr) (s s' : Size), va ≠ va' → x.m.reservations[va]? = some s → x.m.reservations[va']? = some s' → Apart va s va' s'
  inside : ∀ (id : BitVec 32) (c : ManagedChunk), x.m.chunks[id]? = some c → c.mapped = true → x.m.abs.Inside c.va c.size
  unused : ∀ (id id' : BitVec 32) (c c' : ManagedChunk), id ≠ id' → x.m.chunks[id]? = some c → x.m.chunks[id']? = some c' →
    c.mapped = true → c'.mapped = true → Apart c.va c.size c'.va c'.size

namespace ManagerAux

open Manager Throwing

variable {β : Type}

/-- The contents of a chunk. -/
def data (d : Cuda β) (c : ManagedChunk) : Option β := d.handles[c.handle]?.map Phys.data

/-- A call that returned. -/
structure Done (x : Managed β) (c : ManagerCall) (v : c.Result) (m' : Manager) (w' : Watched β) : Prop where
  late : w'.late = false
  allows : x.m.abs.Allows c
  answers : x.m.abs.Answers c v
  after : m'.abs = x.m.abs.after c v
  sound : (⟨m', w'.d⟩ : Managed β).Sound
  data : ∀ (id : BitVec 32) (ch ch' : ManagedChunk), x.m.chunks[id]? = some ch → m'.chunks[id]? = some ch' →
    data w'.d ch' = data x.d ch

/-- A call that threw. -/
def Undone (fails : Bool) (x : Managed β) (c : ManagerCall) (m' : Manager) (w' : Watched β) : Prop :=
  (w'.late = false ∧ m' = x.m ∧ w'.d = x.d ∧ (fails = true ∨ ¬x.m.abs.Allows c)) ∨
    (w'.late = true ∧ fails = true ∧ ¬(⟨m', w'.d⟩ : Managed β).Describes)

variable {fails : Bool} {x : Managed β} {m : Manager} {w : Watched β}

/-! ## Driver calls -/

/-- A driver call of the manager is accepted and answered, or it throws. -/
theorem cu_wp {c : CuCall} {Q : BitVec 64 → Manager → Watched β → Prop} {E : Fault → Manager → Watched β → Prop}
    (hok : ∀ (v : BitVec 64) (y : β), w.d.Accepts c → w.d.Gives c v → Q v m { w with d := w.d.after c v y, fresh := false })
    (hfail : ∀ e : CuError, (fails = true ∨ ¬w.d.Accepts c) → E (.cu e) m { w with fresh := false, late := w.late || !w.fresh }) :
    wp (Cuda.watched β fails) (cu c) Q E m w := by
  unfold cu
  rw [wp_bind, wp_call]
  refine ⟨trivial, ?_⟩
  intro r w' h
  cases r with
  | ok v =>
    obtain ⟨hacc, hv, y, rfl⟩ := h
    exact hok v y hacc hv
  | error e =>
    obtain ⟨hfails, rfl⟩ := h
    exact hfail e hfails

variable {S : Type} {W : Prog.World Op Op.Answer S} {s : S} {E : Fault → Manager → S → Prop}

/-- A condition holds behind its check, or the fault is thrown. -/
theorem require_wp {c : Prop} [Decidable c] {f : Fault} {Q : Unit → Manager → S → Prop} (hok : c → Q () m s) (hfail : ¬c → E f m s) :
    wp W (require c f) Q E m s := by
  unfold require
  split
  · exact hok ‹_›
  · exact hfail ‹_›

/-! ## The model's view -/

/-- The chunk of a token of this manager is under its number. -/
theorem live_of_token {t : ChunkToken} (ht : t.owner = m.serial) : m.abs.live t = m.chunks[t.id]?.map ManagedChunk.abs := by
  unfold Fuzz.live Manager.abs
  rw [if_pos ht]
  exact Std.ExtTreeMap.getElem?_map

/-- It is live when the manager has it. -/
theorem live_of_chunk {t : ChunkToken} {c : ManagedChunk} (ht : t.owner = m.serial) (hc : m.chunks[t.id]? = some c) :
    m.abs.live t = some c.abs := by
  rw [live_of_token ht, hc]
  rfl

/-- A mapped chunk is mapped in the model, at its address. -/
theorem abs_mapped {c : ManagedChunk} (hm : c.mapped = true) : c.abs.mapped = some c.va := if_pos hm

/-- One that is not, is not. -/
theorem abs_unmapped {c : ManagedChunk} (hm : c.mapped = false) : c.abs.mapped = none := by
  unfold ManagedChunk.abs
  rw [hm]
  rfl

/-- What is mapped in the model is mapped. -/
theorem mapped_of_abs {c : ManagedChunk} {va : Ptr} (h : c.abs.mapped = some va) : c.mapped = true ∧ c.va = va := by
  cases hm : c.mapped with
  | true =>
    rw [abs_mapped hm] at h
    cases h
    exact ⟨rfl, rfl⟩
  | false =>
    rw [abs_unmapped hm] at h
    cases h

/-- The chunks of the model are those of the manager. -/
theorem abs_chunk (m : Manager) (id : BitVec 32) : m.abs.chunks[id]? = m.chunks[id]?.map ManagedChunk.abs :=
  Std.ExtTreeMap.getElem?_map

/-- A range overlaps no mapped chunk exactly if it overlaps nothing that the driver has mapped. -/
theorem unused_iff (hx : x.Describes) (va : Ptr) (size : Size) : x.m.abs.Unused va size ↔
    ∀ (va' : Ptr) (mp : Mapping), x.d.mappings[va']? = some mp → Apart va size va' mp.size := by
  constructor
  · intro h va' mp hmp
    obtain ⟨id, c, hc, hm, rfl, -⟩ := hx.mapping va' mp hmp
    have hmp' := hx.mapped id c hc hm
    rw [hmp] at hmp'
    cases hmp'
    exact h id c.abs c.va (by rw [abs_chunk, hc]; rfl) (abs_mapped hm)
  · intro h id o va' ho hva
    rw [abs_chunk, Option.map_eq_some_iff] at ho
    obtain ⟨c, hc, rfl⟩ := ho
    obtain ⟨hm, rfl⟩ := mapped_of_abs hva
    exact h c.va _ (hx.mapped id c hc hm)

/-- The chunk of a token, or none to the model. -/
theorem chunkOf_wp {t : ChunkToken} {what : String} {Q : ManagedChunk → Manager → S → Prop} (hs : m.serial ≠ 0)
    (hok : ∀ c : ManagedChunk, t.owner = m.serial → m.chunks[t.id]? = some c → Q c m s)
    (hfail : ∀ f : Fault, m.abs.live t = none → E f m s) : wp W (chunkOf t what) Q E m s := by
  unfold chunkOf
  rw [wp_bind]
  refine require_wp (fun hv => ?_) fun hv => hfail _ ?_
  · rw [wp_bind, wp_get, wp_bind]
    refine require_wp (fun ht => ?_) fun ht => hfail _ (if_neg ht)
    cases hc : m.chunks[t.id]? with
    | some c => exact hok c ht hc
    | none =>
      refine hfail _ ?_
      rw [live_of_token ht, hc]
      rfl
  · refine if_neg fun ht => hv ?_
    have ht : t.owner = m.serial := ht
    unfold ChunkToken.valid
    rw [ht]
    simpa using hs

/-! ## Queries -/

variable {t : ChunkToken}

/-- A call that only read. -/
theorem Done.same {c : ManagerCall} {v : c.Result} (hx : x.Sound) (hallow : x.m.abs.Allows c) (hans : x.m.abs.Answers c v)
    (hafter : x.m.abs.after c v = x.m.abs) : Done x c v x.m { d := x.d } := by
  refine ⟨rfl, hallow, hans, hafter.symm, hx, ?_⟩
  intro id ch ch' hc hc'
  rw [hc] at hc'
  cases hc'
  rfl

/-- A rule was broken. -/
theorem Undone.refused {c : ManagerCall} (h : ¬x.m.abs.Allows c) : Undone fails x c x.m { d := x.d } :=
  .inl ⟨rfl, rfl, rfl, .inr h⟩

/-- `info` tells what the model does, and changes nothing. -/
theorem info_wp (hx : x.Sound) : wp (Cuda.watched β fails) (info t) (Done x (.info t)) (fun _ => Undone fails x (.info t))
    x.m { d := x.d } := by
  unfold info
  rw [wp_bind]
  refine chunkOf_wp hx.serial (fun c ht hc => ?_) fun f hnone => Undone.refused ?_
  · have hlive := live_of_chunk ht hc
    have hid := (hx.chunk t.id c hc).1
    refine Done.same hx ⟨c.abs, hlive⟩ ⟨hid, hlive.trans ?_⟩ rfl
    unfold ManagedChunk.abs ManagedChunk.mapped
    by_cases h0 : c.va = 0
    · simp [h0]
    · simp
  · intro hallow
    obtain ⟨ch, hlive⟩ := hallow
    rw [hnone] at hlive
    cases hlive

theorem loc_wp (hx : x.Sound) : wp (Cuda.watched β fails) (loc t) (Done x (.loc t)) (fun _ => Undone fails x (.loc t))
    x.m { d := x.d } := by
  unfold loc
  rw [wp_bind]
  refine chunkOf_wp hx.serial (fun c ht hc => ?_) fun f hnone => Undone.refused ?_
  · have hlive := live_of_chunk ht hc
    refine Done.same hx ⟨c.abs, hlive⟩ ?_ rfl
    show (x.m.abs.live t).map FuzzChunk.loc = some c.loc
    rw [hlive]
    rfl
  · intro hallow
    obtain ⟨ch, hlive⟩ := hallow
    rw [hnone] at hlive
    cases hlive

/-- A chunk of a token that is mapped, or none to the model. -/
theorem mappedChunk_wp {what : String} {α : Type} {k : ManagedChunk → ManagerM α} {Q : α → Manager → S → Prop} (hs : m.serial ≠ 0)
    (hok : ∀ c : ManagedChunk, t.owner = m.serial → m.chunks[t.id]? = some c → c.mapped = true → wp W (k c) Q E m s)
    (hfail : ∀ f : Fault, (¬∃ (ch : FuzzChunk) (va : Ptr), m.abs.live t = some ch ∧ ch.mapped = some va) → E f m s) :
    wp W (do
      let c ← chunkOf t what
      require (c.mapped = true) (.notMapped what c.id)
      k c) Q E m s := by
  rw [wp_bind]
  refine chunkOf_wp hs (fun c ht hc => ?_) fun f hnone => hfail f ?_
  · rw [wp_bind]
    refine require_wp (hok c ht hc) fun hm => hfail _ ?_
    intro hex
    obtain ⟨ch, va, hlive, hva⟩ := hex
    rw [live_of_chunk ht hc] at hlive
    cases hlive
    exact hm (mapped_of_abs hva).1
  · intro hex
    obtain ⟨ch, va, hlive, -⟩ := hex
    rw [hnone] at hlive
    cases hlive

theorem va_wp (hx : x.Sound) : wp (Cuda.watched β fails) (va t) (Done x (.va t)) (fun _ => Undone fails x (.va t))
    x.m { d := x.d } := by
  refine mappedChunk_wp hx.serial (fun c ht hc hm => ?_) fun f hno => Undone.refused hno
  have hlive := live_of_chunk ht hc
  refine Done.same hx ⟨c.abs, c.va, hlive, abs_mapped hm⟩ ?_ rfl
  show (x.m.abs.live t).bind FuzzChunk.mapped = some c.va
  rw [hlive]
  exact abs_mapped hm

end ManagerAux

end Vmem
