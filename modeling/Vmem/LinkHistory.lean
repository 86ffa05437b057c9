import Vmem.Backend

/-!
# What a call does with the driver and with the link

Two ways to watch a call of the backend, whatever its environment answers. `History` keeps the driver calls with their outcomes and
the broker's answer to the call's own request. `Wire` keeps the state of the socket: messages may be sent on a connected descriptor
only, and only until something fails on it.
-/

namespace Vmem

/-- A call that creates, destroys or moves a chunk, with the caller's chunk. -/
inductive ChunkCall
  | create (size : Size) (out : Chunk)
  | destroy (c : Chunk)
  | move (c : Chunk) (target : Loc)
deriving DecidableEq, Repr

def ChunkCall.program : ChunkCall → BackendM (Status × Chunk)
  | .create size out => VmemBackend.create size out
  | .destroy c => VmemBackend.destroy c
  | .move c target => VmemBackend.move c target

/-! ## The driver calls and the answer -/

/-- A driver call: a checked one with its outcome, or a clean-up call. -/
inductive DriverEvent
  | cu (c : CuCall) (r : Except CuError (BitVec 64))
  | drop (c : CuCall)

/-- The outcome of a checked call. -/
def DriverEvent.outcome : DriverEvent → Option (Except CuError (BitVec 64))
  | .cu _ r => some r
  | .drop _ => none

/-- What happened in a call so far: its driver calls, whether its last message was an `Alloc` or a `Move`, and the reply to that. -/
structure History where
  driver : List DriverEvent := []
  asked : Bool := false
  answer : Option Reply := none

namespace History

/-- The outcomes of the checked driver calls, in order. -/
def outcomes (h : History) : List (Except CuError (BitVec 64)) := h.driver.filterMap DriverEvent.outcome

/-- The history after one more call and its answer. -/
def record (h : History) : (o : Op) → o.Answer → History
  | .cu c, r => { h with driver := h.driver ++ [.cu c r] }
  | .drop c, _ => { h with driver := h.driver ++ [.drop c] }
  | .send _ m, _ => { h with asked := decide (m.type = .alloc ∨ m.type = .move) }
  | .recv _, .reply rep => if h.asked then { h with answer := some rep } else h
  | _, _ => h

/-- Any call may answer anything, and is recorded. -/
def world : Prog.World Op Op.Answer History where
  permits _ _ := True
  answers o h r h' := h' = h.record o r

end History

/-! ## The socket -/

/-- The connected descriptor on which nothing failed, a descriptor that is only to be closed, and whether a step of the link failed
with no connection since. -/
structure Wire where
  live : Option Fd := none
  pending : Option Fd := none
  lost : Bool := false
deriving DecidableEq, Repr

namespace Wire

/-- The state of the socket after a call and its answer. -/
def record (w : Wire) : (o : Op) → o.Answer → Wire
  | .socket, .ok fd => { w with pending := some fd }
  | .socket, .error _ => { w with lost := true }
  | .setsockopt _ _, some _ => { w with lost := true }
  | .connect fd _, none => ⟨some fd, none, false⟩
  | .connect _ _, some _ => { w with lost := true }
  | .close _, _ => { w with live := if w.pending = none then none else w.live, pending := none }
  | .send fd _, some _ => ⟨none, fd, true⟩
  | .recv fd, .error _ => ⟨none, fd, true⟩
  | .recv fd, .short _ => ⟨none, fd, true⟩
  | _, _ => w

/-- Messages go over the live descriptor; one that failed or is not connected yet is closed before a new one is made. -/
def permits (w : Wire) : Op → Prop
  | .socket => w.pending = none
  | .setsockopt fd _ => w.pending = some fd
  | .connect fd _ => w.pending = some fd
  | .close fd => w.pending = some fd ∨ (w.pending = none ∧ w.live = some fd)
  | .send fd _ => fd ≠ none ∧ fd = w.live ∧ w.pending = none
  | .recv fd => fd ≠ none ∧ fd = w.live ∧ w.pending = none
  | _ => True

/-- Any call may answer anything, but a call must be permitted. -/
def world : Prog.World Op Op.Answer Wire where
  permits o w := w.permits o
  answers o w r w' := w' = w.record o r

end Wire

/-- The backend objects that calls lead to, with the state of the socket; the mark of a failed step can be wiped between calls. -/
inductive VmemBackend.Reached : VmemBackend → Wire → Prop
  | start : Reached {} {}
  | wipe {b : VmemBackend} {w : Wire} (h : Reached b w) : Reached b { w with lost := false }
  | opened {b b' : VmemBackend} {w w' : Wire} {c : BackendConfig} {invocation : List UInt8} {s : Status} (h : Reached b w)
      (hr : Prog.Runs Wire.world (VmemBackend.openBackend c invocation b) w (s, b') w') : Reached b' w'
  | closed {b b' : VmemBackend} {w w' : Wire} (h : Reached b w)
      (hr : Prog.Runs Wire.world (VmemBackend.closeBackend b) w ((), b') w') : Reached b' w'
  | reconnected {b b' : VmemBackend} {w w' : Wire} {s : Status} (h : Reached b w)
      (hr : Prog.Runs Wire.world (VmemBackend.reconnect b) w (s, b') w') : Reached b' w'
  | called {b b' : VmemBackend} {w w' : Wire} {c : ChunkCall} {r : Status × Chunk} (h : Reached b w)
      (hr : Prog.Runs Wire.world (c.program b) w (r, b') w') : Reached b' w'

/-! ## What the link does not change -/

/-- Two backend objects that the driver and the caller cannot tell apart. -/
structure VmemBackend.Alike (b c : VmemBackend) : Prop where
  memory : b.SameMemory c
  dev : c.dev = b.dev
  numa : c.numa = b.numa
  gran : c.gran = b.gran

/-- No broker is asked and no connection attempted. -/
def VmemBackend.Local (b : VmemBackend) : Prop := b.link = .localMode ∧ (b.auto = false ∨ b.path = [])

end Vmem
