import Vmem.Backend

/-!
# The driver

A CUDA driver as the state of its virtual memory management: address reservations, physical handles with their place and
contents, and mappings. A successful call has a precondition (`Valid`) and an effect (`after`); a failing call changes nothing.
An unchecked clean-up call succeeds when it is valid. The socket calls do not touch the driver.
-/

namespace Vmem

/-- Physical memory: a handle's size, place and contents. -/
structure Phys (β : Type) where
  size : Size
  loc : Loc
  data : β
deriving DecidableEq

/-- A mapped range: its size, the handle behind it and whether the device may read and write it. -/
structure Mapping where
  size : Size
  h : Handle
  rw : Bool
deriving DecidableEq

/-- The driver's state; contents are of any type `β`. -/
@[ext]
structure Cuda (β : Type) where
  reservations : OrdMap Ptr Size := ∅
  handles : OrdMap Handle (Phys β) := ∅
  mappings : OrdMap Ptr Mapping := ∅
deriving DecidableEq

/-- Two address ranges without a common address. -/
def Apart (va : Ptr) (size : Size) (va' : Ptr) (size' : Size) : Prop :=
  va.toNat + size.toNat ≤ va'.toNat ∨ va'.toNat + size'.toNat ≤ va.toNat

instance (va : Ptr) (size : Size) (va' : Ptr) (size' : Size) : Decidable (Apart va size va' size') :=
  inferInstanceAs (Decidable (_ ∨ _))

namespace Cuda

variable {β : Type}

/-- The contents that an access at `va` reaches. -/
def contents (d : Cuda β) (va : Ptr) : Option β :=
  match d.mappings[va]? with
  | none => none
  | some m => d.handles[m.h]?.map Phys.data

/-- Overwrite the contents of a handle. -/
def write (d : Cuda β) (h : Handle) (x : β) : Cuda β :=
  match d.handles[h]? with
  | none => d
  | some p => { d with handles := d.handles.insert h { p with data := x } }

/-- What a successful call and its answer `v` say about the state before it. -/
def Valid (d : Cuda β) (c : CuCall) (v : BitVec 64) : Prop :=
  match c with
  | .granularity _ => True
  | .reserve size _ => size ≠ 0 ∧ v ≠ 0 ∧ v.toNat + size.toNat ≤ 2 ^ 64 ∧
      ∀ (va : Ptr) (s : Size), d.reservations[va]? = some s → Apart v size va s
  | .addressFree va size => d.reservations[va]? = some size ∧
      ∀ (va' : Ptr) (m : Mapping), d.mappings[va']? = some m → Apart va size va' m.size
  | .create _ _ => d.handles[v]? = none
  | .release h => ∃ p, d.handles[h]? = some p
  | .map va size h => (∃ p, d.handles[h]? = some p ∧ p.size = size) ∧
      (∃ (base : Ptr) (len : Size), d.reservations[base]? = some len ∧ base.toNat ≤ va.toNat ∧
        va.toNat + size.toNat ≤ base.toNat + len.toNat) ∧
      ∀ (va' : Ptr) (m : Mapping), d.mappings[va']? = some m → Apart va size va' m.size
  | .setAccess va size _ => ∃ m, d.mappings[va]? = some m ∧ m.size = size
  | .unmap va size => ∃ m, d.mappings[va]? = some m ∧ m.size = size
  | .memcpyDtoD dst src size => (∃ m, d.mappings[dst]? = some m ∧ m.size = size ∧ m.rw = true) ∧
      ∃ m, d.mappings[src]? = some m ∧ m.size = size ∧ m.rw = true
  | .synchronize => True

instance (d : Cuda β) (c : CuCall) (v : BitVec 64) : Decidable (d.Valid c v) :=
  match c with
  | .granularity _ => .isTrue trivial
  | .reserve size _ => inferInstanceAs (Decidable (size ≠ 0 ∧ v ≠ 0 ∧ v.toNat + size.toNat ≤ 2 ^ 64 ∧
      ∀ (va : Ptr) (s : Size), d.reservations[va]? = some s → Apart v size va s))
  | .addressFree va size => inferInstanceAs (Decidable (d.reservations[va]? = some size ∧
      ∀ (va' : Ptr) (m : Mapping), d.mappings[va']? = some m → Apart va size va' m.size))
  | .create _ _ => inferInstanceAs (Decidable (d.handles[v]? = none))
  | .release h => decidable_of_iff (d.handles[h]?.isSome = true) Option.isSome_iff_exists
  | .map va size h => inferInstanceAs (Decidable ((∃ p ∈ d.handles[h]?, p.size = size) ∧
      (∃ (base : Ptr) (len : Size), d.reservations[base]? = some len ∧ base.toNat ≤ va.toNat ∧
        va.toNat + size.toNat ≤ base.toNat + len.toNat) ∧
      ∀ (va' : Ptr) (m : Mapping), d.mappings[va']? = some m → Apart va size va' m.size))
  | .setAccess va size _ => inferInstanceAs (Decidable (∃ m ∈ d.mappings[va]?, m.size = size))
  | .unmap va size => inferInstanceAs (Decidable (∃ m ∈ d.mappings[va]?, m.size = size))
  | .memcpyDtoD dst src size => inferInstanceAs (Decidable ((∃ m ∈ d.mappings[dst]?, m.size = size ∧ m.rw = true) ∧
      ∃ m ∈ d.mappings[src]?, m.size = size ∧ m.rw = true))
  | .synchronize => .isTrue trivial

/-- The effect of a successful call that answered `v`; a new handle starts with the contents `x`. -/
def after (d : Cuda β) (c : CuCall) (v : BitVec 64) (x : β) : Cuda β :=
  match c with
  | .granularity _ => d
  | .reserve size _ => { d with reservations := d.reservations.insert v size }
  | .addressFree va _ => { d with reservations := d.reservations.erase va }
  | .create size p => { d with handles := d.handles.insert v ⟨size, p.loc, x⟩ }
  | .release h => { d with handles := d.handles.erase h }
  | .map va size h => { d with mappings := d.mappings.insert va ⟨size, h, false⟩ }
  | .setAccess va _ _ =>
    match d.mappings[va]? with
    | none => d
    | some m => { d with mappings := d.mappings.insert va { m with rw := true } }
  | .unmap va _ => { d with mappings := d.mappings.erase va }
  | .memcpyDtoD dst src _ =>
    match d.mappings[dst]?, d.contents src with
    | some m, some y => d.write m.h y
    | _, _ => d
  | .synchronize => d

/-- The driver as the outside of a program. -/
def world (β : Type) : Prog.World Op Op.Answer (Cuda β) where
  permits _ _ := True
  answers
    | .cu c, d, r, d' =>
      match r with
      | .error _ => d' = d
      | .ok v => d.Valid c v ∧ ∃ x, d' = d.after c v x
    | .drop c, d, _, d' => (d.Valid c 0 ∧ ∃ x, d' = d.after c 0 x) ∨ (¬d.Valid c 0 ∧ d' = d)
    | _, d, _, d' => d' = d

end Cuda

end Vmem
