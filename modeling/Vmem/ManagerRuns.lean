import Vmem.Manager

/-!
# Runs of a manager

A manager over the driver of `Vmem.Driver`, with the calls of its user in any order (`Managed.Reached`). The driver may fail any call,
or only the calls that it has no reason to accept. What the records say about the driver is `Managed.Describes`.
-/

namespace Vmem

/-- A driver during a call of a manager: whether it was not called yet, and whether it failed another call than the first. -/
structure Watched (β : Type) where
  d : Cuda β
  fresh : Bool := true
  late : Bool := false

namespace Cuda

variable {β : Type}

/-- The driver has no reason to fail the call. A range may be mapped over several reservations, side by side. -/
def Accepts (d : Cuda β) : CuCall → Prop
  | .reserve size _ => size ≠ 0
  | .create size _ => size ≠ 0
  | .map va size h => (∃ p, d.handles[h]? = some p ∧ p.size = size) ∧
      (∀ a : Nat, va.toNat ≤ a → a < va.toNat + size.toNat → ∃ (base : Ptr) (len : Size), d.reservations[base]? = some len ∧
        base.toNat ≤ a ∧ a < base.toNat + len.toNat) ∧
      ∀ (va' : Ptr) (m : Mapping), d.mappings[va']? = some m → Apart va size va' m.size
  | c => d.Valid c 0

/-- What the driver answers to a call that it accepts: a range apart from the others, which does not reach the end of the address
space; or a new handle. -/
def Gives (d : Cuda β) (c : CuCall) (v : BitVec 64) : Prop :=
  match c with
  | .reserve size _ => d.Valid c v ∧ v.toNat + size.toNat < 2 ^ 64
  | .create _ _ => d.Valid c v
  | _ => True

/-- The driver as the outside of a manager. With `fails` every call may fail; otherwise only a call that it does not accept. What the
destructor gives back has to be there. -/
def watched (β : Type) (fails : Bool) : Prog.World Op Op.Answer (Watched β) where
  permits i w :=
    match i with
    | .drop c => w.d.Valid c 0
    | _ => True
  answers
    | .cu c, w, r, w' =>
      match r with
      | .ok v => w.d.Accepts c ∧ w.d.Gives c v ∧ ∃ x, w' = { w with d := w.d.after c v x, fresh := false }
      | .error _ => (fails = true ∨ ¬w.d.Accepts c) ∧ w' = { w with fresh := false, late := w.late || !w.fresh }
    | .drop c, w, _, w' => w.d.Valid c 0 ∧ ∃ x, w' = { w with d := w.d.after c 0 x }
    | _, w, _, w' => w' = w

end Cuda

/-- A manager and the driver. -/
structure Managed (β : Type) where
  m : Manager
  d : Cuda β

namespace Managed

variable {β : Type}

/-- A call of the manager, with its result; `late` says that the driver failed another call than the first. -/
def Step (fails : Bool) (x : Managed β) (c : ManagerCall) (r : Except Fault c.Result) (x' : Managed β) (late : Bool) : Prop :=
  ∃ w : Watched β, Prog.Runs (Cuda.watched β fails) (c.program.run x.m) { d := x.d } (r, x'.m) w ∧ w.d = x'.d ∧ w.late = late

/-- Fewer than 2^31 chunks are made, with the one that the call makes. -/
def CanCreate (x : Managed β) (c : ManagerCall) : Prop :=
  ∀ (size : Size) (l : Loc), c = .create size l → x.m.nextId.toNat + 1 < 2 ^ 31

/-- The driver has what the call asks for: a free range, a new handle. -/
def Room (x : Managed β) : ManagerCall → Prop
  | .reserve size => x.m.roundUp size ≠ 0 → ∃ v, x.d.Gives (.reserve (x.m.roundUp size) x.m.gran) v
  | .create _ _ => ∃ h : Handle, x.d.handles[h]? = none
  | .remap t _ => (∃ h : Handle, x.d.handles[h]? = none) ∧ ∀ c : ManagedChunk, x.m.chunks[t.id]? = some c →
      ∃ v, x.d.Gives (.reserve c.size x.m.gran) v
  | _ => True

/-- The manager maps the chunk at the address: the token is good and its chunk unmapped, the address is aligned and inside a reservation,
and the driver has room there. -/
def MapsAt (x : Managed β) (t : ChunkToken) (va : Ptr) : Prop :=
  t.valid = true ∧ t.owner = x.m.serial ∧ ∃ c : ManagedChunk, x.m.chunks[t.id]? = some c ∧ c.mapped = false ∧ va % x.m.gran = 0 ∧
    x.m.insideReservation va c.size = true ∧ x.d.Accepts (.map va c.size c.handle)

/-- A manager that was just made. -/
structure Made (x : Managed β) : Prop where
  serial : x.m.serial ≠ 0
  gran : x.m.gran ≠ 0
  nextId : x.m.nextId = 0
  chunks : x.m.chunks = ∅
  reservations : x.m.reservations = ∅
  driver : x.d = {}

/-- What a run reaches when each call meets a condition. Between calls a kernel may write to the memory behind a handle. -/
inductive Reached (fails : Bool) (ok : Managed β → ManagerCall → Bool → Prop) : Managed β → Prop
  | made {x : Managed β} (h : x.Made) : Reached fails ok x
  | call {x x' : Managed β} {c : ManagerCall} {r : Except Fault c.Result} {late : Bool} (h : Reached fails ok x)
      (hs : x.Step fails c r x' late) (hok : ok x c late) : Reached fails ok x'
  | kernel {x : Managed β} (h : Reached fails ok x) (k : Handle) (y : β) : Reached fails ok { x with d := x.d.write k y }

/-- What a run goes on to from a state. -/
inductive Later (fails : Bool) (ok : Managed β → ManagerCall → Bool → Prop) (x : Managed β) : Managed β → Prop
  | refl : Later fails ok x x
  | call {x' x'' : Managed β} {c : ManagerCall} {r : Except Fault c.Result} {late : Bool} (h : Later fails ok x x')
      (hs : x'.Step fails c r x'' late) (hok : ok x' c late) : Later fails ok x x''
  | kernel {x' : Managed β} (h : Later fails ok x x') (k : Handle) (y : β) : Later fails ok x { x' with d := x'.d.write k y }

/-- The records describe the driver: each chunk has its handle, alone, of its size and at its place; a mapped chunk is mapped at its
address by its handle, for the device to read and write; nothing else is mapped or allocated; and the reservations are those of the
driver. -/
structure Describes (x : Managed β) : Prop where
  chunk : ∀ (id : BitVec 32) (c : ManagedChunk), x.m.chunks[id]? = some c → c.id = id ∧ ∃ y, x.d.handles[c.handle]? = some ⟨c.size, c.loc, y⟩
  alone : ∀ (id id' : BitVec 32) (c c' : ManagedChunk), x.m.chunks[id]? = some c → x.m.chunks[id']? = some c' → c.handle = c'.handle →
    id = id'
  handle : ∀ (h : Handle) (p : Phys β), x.d.handles[h]? = some p → ∃ (id : BitVec 32) (c : ManagedChunk),
    x.m.chunks[id]? = some c ∧ c.handle = h
  mapped : ∀ (id : BitVec 32) (c : ManagedChunk), x.m.chunks[id]? = some c → c.mapped = true →
    x.d.mappings[c.va]? = some ⟨c.size, c.handle, true⟩
  mapping : ∀ (va : Ptr) (mp : Mapping), x.d.mappings[va]? = some mp → ∃ (id : BitVec 32) (c : ManagedChunk),
    x.m.chunks[id]? = some c ∧ c.mapped = true ∧ c.va = va ∧ c.handle = mp.h
  reservations : x.d.reservations = x.m.reservations

/-- The calls are all or nothing, with a driver that may fail any call. -/
structure AllOrNothing (x : Managed β) : Prop where
  describes : x.Describes
  /-- After the next call the records describe the driver exactly if the driver failed none but its first. -/
  exact : ∀ (c : ManagerCall) (r : Except Fault c.Result) (x' : Managed β) (late : Bool), x.CanCreate c → x.Step true c r x' late →
    (x'.Describes ↔ late = false)
  /-- A call that throws then leaves the manager and the driver as they were. -/
  throws : ∀ (c : ManagerCall) (e : Fault) (x' : Managed β), x.CanCreate c → x.Step true c (.error e) x' false → x' = x
  /-- A call that returns keeps the contents of every chunk. -/
  returns : ∀ (c : ManagerCall) (v : c.Result) (x' : Managed β) (late : Bool), x.CanCreate c → x.Step true c (.ok v) x' late →
    late = false ∧ ∀ (id : BitVec 32) (ch ch' : ManagedChunk), x.m.chunks[id]? = some ch → x'.m.chunks[id]? = some ch' →
      x'.d.handles[ch'.handle]?.map Phys.data = x.d.handles[ch.handle]?.map Phys.data
  /-- The destructor gives everything back once and leaves nothing. -/
  destructs : Throwing.wp (Cuda.watched β true) Manager.destruct (fun _ _ w => w.d = {}) (fun _ _ _ => False) x.m { d := x.d }

end Managed

end Vmem
