import Vmem.ManagerRuns

/-!
# The fuzz model

The rules of a manager as its users see them, in the terms of `tests/fuzz.py`: reservations, and chunks with a size, a place and
possibly an address. There is no driver here. `Fuzz.Allows` says which calls succeed, `Fuzz.after` what they do, and `Fuzz.Answers`
what they return.
-/

namespace Vmem

structure FuzzChunk where
  size : Size
  loc : Loc
  mapped : Option Ptr
deriving DecidableEq, Repr

/-- The state of the model. `next` is the id of the next chunk; ids of released chunks are not used again. -/
structure Fuzz where
  serial : BitVec 32
  gran : Size
  next : BitVec 32
  res : OrdMap Ptr Size
  chunks : OrdMap (BitVec 32) FuzzChunk
deriving DecidableEq

namespace Fuzz

/-- The chunk of a token; there is none for a token of another manager or of no manager, and for a released chunk. -/
def live (f : Fuzz) (t : ChunkToken) : Option FuzzChunk := if t.owner = f.serial then f.chunks[t.id]? else none

/-- A size in whole granules. -/
def round (f : Fuzz) (size : Size) : Size := (size + f.gran - 1) / f.gran * f.gran

/-- The range lies inside one live reservation. -/
def Inside (f : Fuzz) (va : Ptr) (size : Size) : Prop := ∃ (base : Ptr) (len : Size), f.res[base]? = some len ∧
  base.toNat ≤ va.toNat ∧ va.toNat + size.toNat ≤ base.toNat + len.toNat

/-- The range overlaps no mapped chunk. -/
def Unused (f : Fuzz) (va : Ptr) (size : Size) : Prop := ∀ (id : BitVec 32) (o : FuzzChunk) (va' : Ptr), f.chunks[id]? = some o →
  o.mapped = some va' → Apart va size va' o.size

/-- The calls that succeed. -/
def Allows (f : Fuzz) : ManagerCall → Prop
  | .reserve size => f.round size ≠ 0
  | .create size _ => size ≠ 0 ∧ f.round size ≠ 0
  | .map t va => ∃ ch : FuzzChunk, f.live t = some ch ∧ ch.mapped = none ∧ va % f.gran = 0 ∧ f.Inside va ch.size ∧ f.Unused va ch.size
  | .unmap t => ∃ (ch : FuzzChunk) (va : Ptr), f.live t = some ch ∧ ch.mapped = some va
  | .remap t _ => ∃ (ch : FuzzChunk) (va : Ptr), f.live t = some ch ∧ ch.mapped = some va
  | .release t => ∃ ch : FuzzChunk, f.live t = some ch ∧ ch.mapped = none
  | .free va => ∃ len : Size, f.res[va]? = some len ∧ ∀ (id : BitVec 32) (o : FuzzChunk) (va' : Ptr), f.chunks[id]? = some o →
      o.mapped = some va' → ¬(va.toNat ≤ va'.toNat ∧ va'.toNat < va.toNat + len.toNat)
  | .va t => ∃ (ch : FuzzChunk) (va : Ptr), f.live t = some ch ∧ ch.mapped = some va
  | .loc t => ∃ ch : FuzzChunk, f.live t = some ch
  | .info t => ∃ ch : FuzzChunk, f.live t = some ch

/-- Change a live chunk. -/
def change (f : Fuzz) (t : ChunkToken) (g : FuzzChunk → FuzzChunk) : Fuzz :=
  match f.live t with
  | none => f
  | some ch => { f with chunks := f.chunks.insert t.id (g ch) }

/-- The state after a call that returned. -/
def after (f : Fuzz) : (c : ManagerCall) → c.Result → Fuzz
  | .reserve size, va => { f with res := f.res.insert va (f.round size) }
  | .create size l, _ => { f with next := f.next + 1, chunks := f.chunks.insert f.next ⟨f.round size, l, none⟩ }
  | .map t va, _ => f.change t fun ch => { ch with mapped := some va }
  | .unmap t, _ => f.change t fun ch => { ch with mapped := none }
  | .remap t l, _ => f.change t fun ch => { ch with loc := l }
  | .release t, _ => { f with chunks := f.chunks.erase t.id }
  | .free va, _ => { f with res := f.res.erase va }
  | _, _ => f

/-- What a call returns: a new range and a new token; otherwise what the model says of the chunk or the reservation. -/
def Answers (f : Fuzz) : (c : ManagerCall) → c.Result → Prop
  | .reserve size, va => va ≠ 0 ∧ ∀ (base : Ptr) (len : Size), f.res[base]? = some len → Apart va (f.round size) base len
  | .create _ _, t => t = ⟨f.serial, f.next⟩
  | .map _ va, r => r = va
  | .unmap t, r => (f.live t).bind FuzzChunk.mapped = some r
  | .remap t _, r => (f.live t).bind FuzzChunk.mapped = some r
  | .release t, r => (f.live t).map FuzzChunk.size = some r
  | .free va, r => f.res[va]? = some r
  | .va t, r => (f.live t).bind FuzzChunk.mapped = some r
  | .loc t, r => (f.live t).map FuzzChunk.loc = some r
  | .info t, r => r.id = t.id ∧ f.live t = some ⟨r.size, r.loc, if r.va = 0 then none else some r.va⟩

/-- A token of another manager or of no manager, or of a chunk that was released. -/
def Dead (f : Fuzz) (t : ChunkToken) : Prop := t.owner ≠ f.serial ∨ (t.id.toNat < f.next.toNat ∧ f.chunks[t.id]? = none)

end Fuzz

/-- The token that a call is about. -/
def ManagerCall.token : ManagerCall → Option ChunkToken
  | .map t _ => some t
  | .unmap t => some t
  | .remap t _ => some t
  | .release t => some t
  | .va t => some t
  | .loc t => some t
  | .info t => some t
  | _ => none

/-- What a chunk is to the model. -/
def ManagedChunk.abs (c : ManagedChunk) : FuzzChunk := ⟨c.size, c.loc, if c.mapped then some c.va else none⟩

/-- What a manager is to the model: its records without the handles. -/
def Manager.abs (m : Manager) : Fuzz :=
  ⟨m.serial, m.gran, m.nextId, m.reservations, m.chunks.map fun _ c => c.abs⟩

/-! ## Refinement -/

/-- A manager is as the model says. -/
structure Managed.Refines {β : Type} [Inhabited β] (x : Managed β) : Prop where
  /-- A call returns exactly if the model allows it, with what the model answers, and then the records are the model's next state; otherwise
  it throws, and nothing has changed. -/
  calls : ∀ (c : ManagerCall) (r : Except Fault c.Result) (x' : Managed β) (late : Bool), x.CanCreate c → x.Step false c r x' late →
    (∃ v : c.Result, r = .ok v ∧ x.m.abs.Allows c ∧ x.m.abs.Answers c v ∧ x'.m.abs = x.m.abs.after c v) ∨
    (∃ e : Fault, r = .error e ∧ ¬x.m.abs.Allows c ∧ x' = x)
  /-- A call for which the driver has room ends. -/
  ends : ∀ c : ManagerCall, x.Room c → ∃ (r : Except Fault c.Result) (x' : Managed β) (late : Bool), x.Step false c r x' late
  /-- Sizes that do not wrap are allowed. -/
  allows : ∀ size : Size, size ≠ 0 → size.toNat + x.m.gran.toNat ≤ 2 ^ 64 →
    x.m.abs.Allows (.reserve size) ∧ ∀ l : Loc, x.m.abs.Allows (.create size l)
  /-- Every mapped chunk lies in one reservation, -/
  inside : ∀ (id : BitVec 32) (c : ManagedChunk), x.m.chunks[id]? = some c → c.mapped = true → x.m.abs.Inside c.va c.size
  /-- and no two overlap. -/
  apart : ∀ (id id' : BitVec 32) (c c' : ManagedChunk), id ≠ id' → x.m.chunks[id]? = some c → x.m.chunks[id']? = some c' →
    c.mapped = true → c'.mapped = true → Apart c.va c.size c'.va c'.size
  /-- The token of a released chunk is dead, -/
  released : ∀ (t : ChunkToken) (v : Size) (x' : Managed β) (late : Bool), x.Step false (.release t) (.ok v) x' late → x'.m.abs.Dead t
  /-- and a dead token, which may also be one of another manager or of none, never succeeds, now or later. -/
  dead : ∀ t : ChunkToken, x.m.abs.Dead t → ∀ x' : Managed β, x.Later false (fun x c _ => x.CanCreate c) x' →
    ∀ c : ManagerCall, c.token = some t → ¬x'.m.abs.Allows c

/-! ## Containment -/

/-- Ranges of the address space, no two of which overlap. -/
structure Manager.Disjoint (m : Manager) : Prop where
  ends : ∀ (base : Ptr) (len : Size), m.reservations[base]? = some len → base.toNat + len.toNat ≤ 2 ^ 64
  apart : ∀ (base base' : Ptr) (len len' : Size), base ≠ base' → m.reservations[base]? = some len → m.reservations[base']? = some len' →
    Apart base len base' len'

/-- The sums that the check compares are in order: for the last reservation at or below the address, both sums wrap or neither does, or
the range wraps and still ends behind the reservation. -/
def Manager.SumsFit (m : Manager) (va : Ptr) (size : Size) : Prop :=
  ∀ (base : Ptr) (len : Size), m.reservations.floor? va = some (base, len) →
    (va.toNat + size.toNat < 2 ^ 64 ↔ base.toNat + len.toNat < 2 ^ 64) ∨
    (base.toNat + len.toNat < 2 ^ 64 ∧ base.toNat + len.toNat + 2 ^ 64 < va.toNat + size.toNat)

/-- A driver that may only be asked to map inside a reservation of the manager. -/
def Cuda.contained (m : Manager) : Prog.World Op Op.Answer Unit where
  permits i _ :=
    match i with
    | .cu (.map va size _) => m.abs.Inside va size
    | _ => True
  answers _ _ _ _ := True

end Vmem
