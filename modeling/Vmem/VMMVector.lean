import Vmem.ManagerRuns

/-!
# The vector

`VMMVector` of `experiments/VMMVector`: a vector in device memory. It reserves a range for all it may ever hold and maps chunks into it, one
behind the other, as it grows. A CUDA call that fails ends the process (`CU_CHECK`), so every call here succeeds.
-/

namespace Vmem

/-! ## Device memory -/

abbrev Byte := BitVec 8

/-- The contents of physical memory, by offset. -/
abbrev Memory := Nat → Byte

namespace Cuda

/-- The physical byte that the device reaches at an address. -/
def locate {β : Type} (d : Cuda β) (va : Ptr) : Option (Handle × Nat) :=
  match d.mappings.floor? va with
  | none => none
  | some (base, m) => if m.rw = true ∧ va.toNat < base.toNat + m.size.toNat then some (m.h, va.toNat - base.toNat) else none

def byte? (d : Cuda Memory) (va : Ptr) : Option Byte :=
  match d.locate va with
  | none => none
  | some (h, o) => d.handles[h]?.map fun p => p.data o

def setByte (d : Cuda Memory) (va : Ptr) (b : Byte) : Cuda Memory :=
  match d.locate va with
  | none => d
  | some (h, o) =>
    match d.handles[h]? with
    | none => d
    | some p => d.write h (Function.update p.data o b)

def bytes? (d : Cuda Memory) : Ptr → Nat → Option (List Byte)
  | _, 0 => some []
  | va, n + 1 =>
    match d.byte? va, d.bytes? (va + 1) n with
    | some b, some bs => some (b :: bs)
    | _, _ => none

def setBytes (d : Cuda Memory) : Ptr → List Byte → Cuda Memory
  | _, [] => d
  | va, b :: bs => (d.setByte va b).setBytes (va + 1) bs

end Cuda

/-! ## Calls -/

inductive VecCall
  | cu (c : CuCall)
  | setAccess (va : Ptr) (size : Size) (location : MemProp)
  | memcpyHtoD (dst : Ptr) (src : List Byte)
  | memcpyDtoH (src : Ptr) (size : Size)

@[reducible] def VecCall.Answer : VecCall → Type
  | .cu _ => BitVec 64
  | .setAccess _ _ _ => Unit
  | .memcpyHtoD _ _ => Unit
  | .memcpyDtoH _ _ => List Byte

/-- The driver as the outside of a vector. Only valid calls are permitted; the constructor may ask for an empty reservation, which fails. -/
def Cuda.checked : Prog.World VecCall VecCall.Answer (Cuda Memory) where
  permits i d :=
    match i with
    | .cu (.reserve _ _) => True
    | .cu c => d.Accepts c
    | .setAccess va size _ => d.Accepts (.setAccess va size 0)
    | .memcpyHtoD dst src => (d.bytes? dst src.length).isSome = true
    | .memcpyDtoH src size => (d.bytes? src size.toNat).isSome = true
  answers
    | .cu c, d, v, d' => d.Accepts c ∧ d.Gives c v ∧ ∃ x, d' = d.after c v x
    | .setAccess va size _, d, _, d' => d.Accepts (.setAccess va size 0) ∧ d' = d.after (.setAccess va size 0) 0 0
    | .memcpyHtoD dst src, d, _, d' => (d.bytes? dst src.length).isSome = true ∧ d' = d.setBytes dst src
    | .memcpyDtoH src size, d, bs, d' => d.bytes? src size.toNat = some bs ∧ d' = d

/-! ## The vector -/

/-- The type of the elements: `sizeof(T)` and the bytes of `T{}`. -/
structure ElemType where
  sizeof : Size
  zero : List Byte
  pos : sizeof ≠ 0
  zero_length : zero.length = sizeof.toNat

/-- The bytes of an element. -/
structure ElemType.Value (T : ElemType) where
  bytes : List Byte
  length : bytes.length = T.sizeof.toNat
deriving DecidableEq

/-- `T{}`. -/
def ElemType.default (T : ElemType) : T.Value := ⟨T.zero, T.zero_length⟩

structure VMMVector where
  dPtr : Ptr := 0
  size : Size := 0
  capacity : Size := 0
  maxCapacity : Size := 0
  chunkSize : Size := 0
  chunkFits : Size := 0
  retainLast : BitVec 32 := 0
  loc : Loc := .device
  handles : List Handle := []
deriving DecidableEq

/-- What a vector throws. -/
inductive VecError
  | chunkZero
  | chunkSmall
  | chunkMultiple
  | maxCapacity
deriving DecidableEq, Repr

/-- Code of a vector. -/
abbrev VecM := Throwing VecCall VecCall.Answer VMMVector VecError

namespace VMMVector

/-- Pinned memory of device 0, or of the host node 0. -/
def props (v : VMMVector) : MemProp := ⟨v.loc, 0⟩

def roundUp (x granularity : Size) : Size := (x + granularity - 1) / granularity * granularity

/-- `CU_CHECK`. -/
def cu (c : CuCall) : VecM (BitVec 64) := Throwing.call (VecCall.cu c)

def require (c : Prop) [Decidable c] (e : VecError) : VecM Unit := if c then pure () else throw e

/-! ## Chunks -/

def pushChunk : VecM Handle := do
  let v ← get
  let handle ← cu (.create v.chunkSize v.props)
  modify fun v => { v with handles := v.handles ++ [handle], capacity := v.capacity + v.chunkFits }
  pure handle

def popChunk : VecM Unit := do
  let v ← get
  let _ ← cu (.release (v.handles.getLastD 0))
  modify fun v => { v with handles := v.handles.dropLast, capacity := v.capacity - v.chunkFits }

def mapChunk (ptr : Ptr) (handle : Handle) : VecM Unit := do
  let v ← get
  let _ ← cu (.map ptr v.chunkSize handle)
  pure ()

def unmapChunk (ptr : Ptr) : VecM Unit := do
  let v ← get
  let _ ← cu (.unmap ptr v.chunkSize)
  pure ()

def setAccess (ptr : Ptr) : VecM Unit := do
  let v ← get
  Throwing.call (VecCall.setAccess ptr v.chunkSize v.props)

/-- The loop of `reserve`. -/
def addChunks : Nat → Ptr → VecM Unit
  | 0, _ => pure ()
  | n + 1, ptr => do
    let handle ← pushChunk
    mapChunk ptr handle
    setAccess ptr
    let v ← get
    addChunks n (ptr + v.chunkSize)

/-! ## Elements -/

variable (T : ElemType)

/-- The constructor. -/
def make (maxCapacity chunkSize : Size) (retainLast : BitVec 32) (useDevice : Bool) : VecM Unit := do
  modify fun v => { v with maxCapacity, chunkSize, retainLast, loc := if useDevice = true then .device else .host }
  let v ← get
  let minGranularity ← cu (.granularity v.props)
  modify fun v => { v with chunkSize := roundUp chunkSize minGranularity }
  let v ← get
  require (v.chunkSize ≠ 0) .chunkZero
  require (T.sizeof ≤ v.chunkSize) .chunkSmall
  require (v.chunkSize % T.sizeof = 0) .chunkMultiple
  modify fun v => { v with chunkFits := v.chunkSize / T.sizeof }
  modify fun v => { v with maxCapacity := roundUp maxCapacity v.chunkFits }
  let v ← get
  let dPtr ← cu (.reserve (v.maxCapacity * T.sizeof) 0)
  modify fun v => { v with dPtr }

def reserve (newCapacity : Size) : VecM Unit := do
  let v ← get
  if newCapacity ≤ v.capacity then pure ()
  else
    let newCapacity := roundUp newCapacity v.chunkFits
    if v.maxCapacity < newCapacity then throw .maxCapacity
    else
      let extraChunks := newCapacity / v.chunkFits - v.capacity / v.chunkFits
      addChunks extraChunks.toNat (v.dPtr + v.capacity * T.sizeof)

def pushBack (value : T.Value) : VecM Unit := do
  let v ← get
  (if v.size = v.capacity then reserve T (if 1 < v.size then v.size * 2 else 2) else pure ())
  let v ← get
  Throwing.call (VecCall.memcpyHtoD (v.dPtr + v.size * T.sizeof) value.bytes)
  modify fun v => { v with size := v.size + 1 }

/-- More spare elements than this let a chunk go. The sum is an `int`, which is converted to a `size_t`. -/
def keeps (v : VMMVector) : Size := (v.retainLast + 1).signExtend 64 * v.chunkFits

def popBack : VecM Unit := do
  let v ← get
  if v.size = 0 then pure ()
  else
    modify fun v => { v with size := v.size - 1 }
    let v ← get
    if v.retainLast = -1 then pure ()
    else if v.keeps ≤ v.capacity - v.size then
      unmapChunk (v.dPtr + (v.capacity - v.chunkFits) * T.sizeof)
      popChunk
    else pure ()

/-- The loops of `resize`. -/
def popTimes : Nat → VecM Unit
  | 0 => pure ()
  | n + 1 => do
    popBack T
    popTimes n

def pushTimes (value : T.Value) : Nat → VecM Unit
  | 0 => pure ()
  | n + 1 => do
    pushBack T value
    pushTimes value n

def resize (newSize : Size) : VecM Unit := do
  let v ← get
  if newSize ≤ v.size then popTimes T (v.size - newSize).toNat
  else
    (if v.capacity < newSize then reserve T newSize else pure ())
    let v ← get
    pushTimes T T.default (newSize - v.size).toNat

def setRetainLast (retainLast : BitVec 32) : VecM Unit := modify fun v => { v with retainLast }

/-- `copy_to_host`: what it writes to the host. -/
def copyToHost : VecM (List Byte) := do
  let v ← get
  Throwing.call (VecCall.memcpyDtoH v.dPtr (v.size * T.sizeof))

end VMMVector

/-! ## Runs -/

/-- An operation of a vector. -/
inductive VecOp (T : ElemType)
  | pushBack (value : T.Value)
  | popBack
  | resize (newSize : Size)
  | reserve (newCapacity : Size)
  | setRetainLast (retainLast : BitVec 32)

namespace VecOp

variable {T : ElemType}

def program : VecOp T → VecM Unit
  | pushBack value => VMMVector.pushBack T value
  | popBack => VMMVector.popBack T
  | resize newSize => VMMVector.resize T newSize
  | reserve newCapacity => VMMVector.reserve T newCapacity
  | setRetainLast retainLast => VMMVector.setRetainLast retainLast

/-- A retention is -1 or a number of chunks. -/
def Allowed : VecOp T → Prop
  | setRetainLast retainLast => -1 ≤ retainLast.toInt
  | _ => True

/-- What the operation does to the elements of a plain vector. -/
def plain (xs : List T.Value) : VecOp T → List T.Value
  | pushBack value => xs ++ [value]
  | popBack => xs.dropLast
  | resize newSize => xs.take newSize.toNat ++ List.replicate (newSize.toNat - xs.length) T.default
  | _ => xs

/-- The vector would hold more than it may. -/
def TooLarge (v : VMMVector) : VecOp T → Prop
  | pushBack _ => v.size = v.maxCapacity
  | resize newSize => v.maxCapacity < newSize
  | reserve newCapacity => v.maxCapacity < newCapacity
  | _ => False

end VecOp

namespace VMMVector

/-- All that the vector may hold can be addressed. -/
def Declared (T : ElemType) (v : VMMVector) : Prop := v.maxCapacity.toNat * T.sizeof.toNat < 2 ^ 64

/-- The number can be rounded up to whole chunks. -/
def Rounds (v : VMMVector) (n : Nat) : Prop := n + v.chunkFits.toNat ≤ 2 ^ 64

/-- Everything is retained, or at least the elements that are in use: the sum is an `int`, and the product is not less than a chunk. -/
def Retains (v : VMMVector) : Prop := v.retainLast = -1 ∨ (v.retainLast ≠ BitVec.intMax 32 ∧ v.chunkFits ≤ v.keeps)

/-- The size that a full vector grows to. -/
def doubled (v : VMMVector) : Nat := if 1 < v.size.toNat then 2 * v.size.toNat else 2

/-- A full vector is at its end, or twice its size is within its end; sizes can be rounded up; and no element in use is let go. -/
def Fits {T : ElemType} (v : VMMVector) : VecOp T → Prop
  | .pushBack _ => v.size = v.capacity → v.Rounds v.doubled ∧ (v.size = v.maxCapacity ∨ v.doubled ≤ v.maxCapacity.toNat)
  | .popBack => v.size ≠ 0 → v.Retains
  | .resize newSize => (newSize < v.size → v.Retains) ∧ (v.capacity < newSize → v.Rounds newSize.toNat)
  | .reserve newCapacity => v.capacity < newCapacity → v.Rounds newCapacity.toNat
  | .setRetainLast _ => True

end VMMVector

/-- A driver that only maps what is reserved. -/
def Cuda.Contained {β : Type} (d : Cuda β) : Prop :=
  ∀ (va : Ptr) (m : Mapping), d.mappings[va]? = some m → m.size ≠ 0 ∧ ∀ a : Nat, va.toNat ≤ a → a < va.toNat + m.size.toNat →
    ∃ (base : Ptr) (len : Size), d.reservations[base]? = some len ∧ base.toNat ≤ a ∧ a < base.toNat + len.toNat

/-- A vector and the driver, with the elements that a plain vector holds after the same operations. -/
structure Vec (T : ElemType) where
  v : VMMVector
  d : Cuda Memory
  xs : List T.Value

namespace Vec

variable {T : ElemType}

/-- A vector after some operations, in a process in which no CUDA call failed. `made` bounds what is constructed and `ok` bounds the operations;
one that throws leaves a plain vector as it was. -/
inductive Reached (made : VMMVector → Prop) (ok : VMMVector → VecOp T → Prop) : Vec T → Prop
  | make {d d' : Cuda Memory} {v : VMMVector} {maxCapacity chunkSize : Size} {retainLast : BitVec 32} {useDevice : Bool} (hd : d.Contained)
      (hr : -1 ≤ retainLast.toInt)
      (hrun : Prog.Runs Cuda.checked ((VMMVector.make T maxCapacity chunkSize retainLast useDevice).run {}) d (.ok (), v) d') (hv : made v) :
      Reached made ok ⟨v, d', []⟩
  | op {x : Vec T} {o : VecOp T} {r : Except VecError Unit} {v' : VMMVector} {d' : Cuda Memory} (h : Reached made ok x) (hr : o.Allowed)
      (hok : ok x.v o) (hrun : Prog.Runs Cuda.checked (o.program.run x.v) x.d (r, v') d') :
      Reached made ok ⟨v', d', match r with | .ok _ => o.plain x.xs | .error _ => x.xs⟩

/-- The vector is in order: its sizes fit, exactly the slots of its handles are mapped, and its elements are those of a plain vector. -/
structure Good (x : Vec T) : Prop where
  capacity : x.v.capacity.toNat = x.v.handles.length * x.v.chunkFits.toNat
  size_le : x.v.size ≤ x.v.capacity
  capacity_le : x.v.capacity ≤ x.v.maxCapacity
  reserved : ∃ len : Size, x.d.reservations[x.v.dPtr]? = some len ∧ len.toNat = x.v.maxCapacity.toNat * T.sizeof.toNat
  mapped : ∀ (va : Ptr) (m : Mapping), (x.d.mappings[va]? = some m ∧ ¬Apart va m.size x.v.dPtr (x.v.maxCapacity * T.sizeof)) ↔
    ∃ (i : Nat) (h : Handle), x.v.handles[i]? = some h ∧ va.toNat = x.v.dPtr.toNat + i * x.v.chunkSize.toNat ∧ m = ⟨x.v.chunkSize, h, true⟩
  size : x.v.size.toNat = x.xs.length
  elements : x.d.bytes? x.v.dPtr (x.v.size.toNat * T.sizeof.toNat) = some (x.xs.flatMap ElemType.Value.bytes)

end Vec

end Vmem
