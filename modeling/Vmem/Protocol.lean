import Vmem.Lib.OrdMap

/-!
# Shared types and the wire protocol

The types of `backend.h` (locations, statuses, the state of the link, chunks) and the messages of `protocol.h`. Sizes and
addresses are 64-bit words, as in the source: their sums wrap.
-/

namespace Vmem

/-- `size_t`, `uint64_t`. -/
abbrev Size := BitVec 64

/-- `CUdeviceptr`, `uintptr_t`. -/
abbrev Ptr := BitVec 64

/-- A socket descriptor. -/
abbrev Fd := Nat

/-! ## backend.h -/

inductive Loc
  | device
  | host
deriving DecidableEq, Repr

instance Loc.decidableForall {P : Loc → Prop} [∀ l, Decidable (P l)] : Decidable (∀ l, P l) :=
  decidable_of_iff (P .device ∧ P .host) ⟨fun h l => Loc.rec h.1 h.2 l, fun h => ⟨h .device, h .host⟩⟩

inductive Status
  | ok
  | noMemory
  | unsupported
  | disconnected
  | fatal
deriving DecidableEq, Repr

/-- The state of the link to the broker (`localMode` is `Link::Local`: no broker ran at `open`). -/
inductive Link
  | connected
  | localMode
  | broken
deriving DecidableEq, Repr

structure Chunk where
  ptr : Ptr := 0
  size : Size := 0
  loc : Loc := .device
deriving DecidableEq, Repr

/-! ## protocol.h -/

/-- A location field as it is read off the socket: a named location, or a value of the enumeration's underlying type that
names none. -/
inductive LocField
  | device
  | host
  | other (raw : BitVec 32)
deriving DecidableEq, Repr

/-- The field a client sends for a location. -/
def Loc.field : Loc → LocField
  | .device => .device
  | .host => .host

/-- `proto::Type`, or a value that is none of its names. -/
inductive MsgType
  | hello
  | alloc
  | allocFail
  | free
  | move
  | moveDone
  | resync
  | other (raw : BitVec 32)
deriving DecidableEq, Repr

def nameLen : Nat := 32

structure Msg where
  type : MsgType
  loc : LocField := .device
  ptr : Ptr := 0
  size : Size := 0
  name : List UInt8 := []
deriving DecidableEq, Repr

/-- `sizeof(Msg)`; the wire layout asserts it. -/
def sizeofMsg : Nat := 56

structure Reply where
  status : Status
  loc : Loc
deriving DecidableEq, Repr

end Vmem
