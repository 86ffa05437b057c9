import Vmem.Protocol
import Vmem.Lib.Prog

/-!
# The calls of a client

What `libvmem` calls outside itself: the CUDA driver and runtime, and the socket of the broker. A driver call whose result the
source looks at is `Op.cu`; a clean-up call whose result it ignores is `Op.drop`.
-/

namespace Vmem

/-- `CUmemGenericAllocationHandle`. -/
abbrev Handle := BitVec 64

/-- A `CUresult` other than `CUDA_SUCCESS`. -/
inductive CuError
  | outOfMemory
  | other (code : Nat)
deriving DecidableEq, Repr

/-- `CUmemAllocationProp`: where a handle lies (pinned, on the device or on a host NUMA node). -/
structure MemProp where
  loc : Loc
  id : Int
deriving DecidableEq, Repr

/-- Driver calls. `reserve` answers an address, `create` a handle and `granularity` a size. -/
inductive CuCall
  | granularity (prop : MemProp)
  | reserve (size align : Size)
  | addressFree (va : Ptr) (size : Size)
  | create (size : Size) (prop : MemProp)
  | release (h : Handle)
  | map (va : Ptr) (size : Size) (h : Handle)
  | setAccess (va : Ptr) (size : Size) (dev : Int)
  | unmap (va : Ptr) (size : Size)
  | memcpyDtoD (dst src : Ptr) (size : Size)
  | synchronize
deriving DecidableEq, Repr

/-- The device attributes that `open` asks for. -/
inductive DevAttr
  | vmm
  | hostVmm
  | hostNumaId
deriving DecidableEq, Repr

/-- `errno`. -/
inductive Errno
  | enoent
  | econnrefused
  | enametoolong
  | etimedout
  | other (code : Nat)
deriving DecidableEq, Repr

/-- What `recv` of a reply ends with, once it is not interrupted: a whole reply, an error, or any other number of bytes. -/
inductive Received
  | reply (rep : Reply)
  | error (e : Errno)
  | short (n : Nat)
deriving DecidableEq, Repr

/-- A call. A descriptor `none` is `-1`. `atFailed` is the exception of `std::map::at` for a missing key. -/
inductive Op
  | cu (c : CuCall)
  | drop (c : CuCall)
  | cudaSetDevice (dev : Int)
  | cudaFreeNull
  | attribute (a : DevAttr) (dev : Int)
  | socket
  | setsockopt (fd : Fd) (timeout : Nat)
  | connect (fd : Fd) (path : List UInt8)
  | close (fd : Fd)
  | send (fd : Option Fd) (m : Msg)
  | recv (fd : Option Fd)
  | atFailed
deriving DecidableEq, Repr

/-- What a call answers. A `send` answers `none` when the whole message went out. -/
@[reducible] def Op.Answer : Op → Type
  | .cu _ => Except CuError (BitVec 64)
  | .drop _ => Unit
  | .cudaSetDevice _ => Bool
  | .cudaFreeNull => Bool
  | .attribute _ _ => Int
  | .socket => Except Errno Fd
  | .setsockopt _ _ => Option Errno
  | .connect _ _ => Option Errno
  | .close _ => Unit
  | .send _ _ => Option Errno
  | .recv _ => Received
  | .atFailed => Empty

end Vmem
