import Vmem.Calls
import Vmem.Lib.OrdMap

/-!
# A segment shared between processes

`experiments/VMMRemapShared`: an owner shares the chunks of a segment with its subscribers, grows it and moves a chunk while they have it.
The owner is a straight list of steps (`ownerMain`); a subscriber is its place in `main` (`Pc`). They run in any order. A process that fails
ends, which here is that it takes no more steps.
-/

namespace Vmem

namespace Shared

/-! ## ipc_common.h -/

inductive MsgType
  | header
  | addChunk
  | revoke
  | remap
  | go
deriving DecidableEq, Repr

/-- A message and the memory behind the fds that it carries. -/
structure Msg where
  type : MsgType
  chunkCount : Nat := 0
  chunkIdx : Nat := 0
  fds : List Handle := []
deriving DecidableEq, Repr

/-- An entry of `allocs`. -/
structure Region where
  off : Nat
  len : Nat
  tag : BitVec 32
deriving DecidableEq, Repr

/-- The arguments of the processes. The fds of a header fit the buffer of `send_fds`, the entries of two passes fit `allocs`, an offset is
a 64-bit number, and a chunk, which is rounded up to the granularity, is a number of whole words. -/
structure Config where
  nsub : Nat
  nchk : Nat
  chunk : Nat
  pid : Fin nsub → BitVec 32
  fits : nchk ≤ 64 := by decide
  table : 2 * nsub ≤ 64 := by decide
  addressed : chunk * 256 < 2 ^ 64 := by decide
  words : 4 ∣ chunk := by decide

/-! ## subscriber.cu -/

/-- What a subscriber waits for. -/
inductive Stage
  | header
  | addChunk
  | serve
deriving DecidableEq, Repr

/-- Where a subscriber is; the stage is the one it waits in next. -/
inductive Pc
  | wait (g : Stage)
  | got (g : Stage) (m : Msg)
  | alloc (g : Stage)
  | tag (g : Stage) (r : Region)
  | reply (g : Stage)
  | verify
deriving DecidableEq, Repr

/-- A subscriber, its mappings by chunk, and what is in flight to it and from it. -/
structure Subscriber where
  pc : Pc := .wait .header
  mapped : OrdMap Nat Handle := ∅
  fds : List Handle := []
  inbox : List Msg := []
  acks : Nat := 0

/-- `map_chunk`; a chunk that is mapped already is an error. -/
def mapChunk (idx : Nat) (h : Handle) (mp : OrdMap Nat Handle) : Option (OrdMap Nat Handle) :=
  if idx ∈ mp then none else some (mp.insert idx h)

/-- The chunks of a header, from the slot `idx` on. -/
def mapChunks : Nat → List Handle → OrdMap Nat Handle → Option (OrdMap Nat Handle)
  | _, [], mp => some mp
  | idx, h :: hs, mp => (mapChunk idx h mp).bind (mapChunks (idx + 1) hs)

/-- `unmap_chunk`. -/
def unmapChunk (idx : Nat) (mp : OrdMap Nat Handle) : Option (OrdMap Nat Handle) :=
  if idx ∈ mp then some (mp.erase idx) else none

/-- What `main` does with a message; the array `fds` keeps what it was given last. -/
def Subscriber.act (u : Subscriber) : Stage → Msg → Option Subscriber
  | .header, m => (mapChunks 0 m.fds u.mapped).map fun mp => { u with pc := .alloc .addChunk, mapped := mp }
  | .addChunk, m =>
    if m.type ≠ .addChunk ∨ m.fds.length ≠ 1 then none
    else u.fds.head?.bind fun h => (mapChunk (m.chunkCount - 1) h u.mapped).map fun mp => { u with pc := .alloc .serve, mapped := mp }
  | .serve, m =>
    match m.type with
    | .go => some { u with pc := .verify }
    | .revoke => (unmapChunk m.chunkIdx u.mapped).map fun mp => { u with pc := .reply .serve, mapped := mp }
    | .remap => u.fds.head?.bind fun h => (mapChunk m.chunkIdx h u.mapped).map fun mp => { u with pc := .reply .serve, mapped := mp }
    | _ => none

/-- The bytes of an allocation. -/
def allocLen : Nat := 64 <<< 10

/-- The tag of the pass before a stage. -/
def tagOf (g : Stage) (pid : BitVec 32) : BitVec 32 := (if g = .addChunk then 0xA5000000 else 0x5A000000) ||| (pid &&& 0xFFFF)

/-! ## owner.cu -/

/-- A step of the owner; `n` is the number of subscribers. -/
inductive OwnerStep (n : Nat)
  | addChunk (idx : Nat)
  | send (i : Fin n) (t : MsgType) (idx : Nat)
  | await (i : Fin n)
  | grow
  | remapBacking (idx : Nat) (toHost : Bool)
  | verify
deriving DecidableEq

def barrier {n : Nat} (cs : List (Fin n)) : List (OwnerStep n) := cs.map .await

def broadcast {n : Nat} (cs : List (Fin n)) (t : MsgType) (idx : Nat) : List (OwnerStep n) := cs.map (.send · t idx)

def remapPhase {n : Nat} (cs : List (Fin n)) (idx : Nat) (toHost : Bool) : List (OwnerStep n) :=
  broadcast cs .revoke idx ++ (barrier cs ++ (.remapBacking idx toHost :: (broadcast cs .remap idx ++ barrier cs)))

/-- `main`: a subscriber is sent its header when it is accepted. -/
def ownerMain (c : Config) : List (OwnerStep c.nsub) :=
  let cs := List.finRange c.nsub
  (List.range c.nchk).map .addChunk ++ (broadcast cs .header 0 ++ (barrier cs ++ (.addChunk c.nchk :: .grow ::
    (broadcast cs .addChunk 0 ++ (barrier cs ++ (remapPhase cs 0 true ++ (remapPhase cs 0 false ++
      (broadcast cs .go 0 ++ [.verify]))))))))

/-! ## The processes -/

/-- The owner's handles, the contents of memory in words of four bytes, the shared state and the subscribers. -/
structure State (c : Config) where
  rest : List (OwnerStep c.nsub) := ownerMain c
  handles : List Handle := []
  mem : Handle → Nat → BitVec 32 := fun _ _ => 0
  bump : Nat := 0
  total : Nat := c.chunk * c.nchk
  allocs : List Region := []
  onHost : OrdMap Nat Bool := ∅
  subs : Fin c.nsub → Subscriber := fun _ => {}

namespace State

variable {c : Config}

/-- The message of a send. -/
def msg (s : State c) (idx : Nat) : MsgType → Msg
  | .header => { type := .header, chunkCount := s.handles.length, fds := s.handles }
  | .addChunk => { type := .addChunk, chunkCount := s.handles.length, fds := s.handles.getLast?.toList }
  | .revoke => { type := .revoke, chunkIdx := idx }
  | .remap => { type := .remap, chunkIdx := idx, fds := s.handles[idx]?.toList }
  | .go => { type := .go }

def setSub (s : State c) (i : Fin c.nsub) (u : Subscriber) : State c := { s with subs := Function.update s.subs i u }

/-- The word that a process with the handles `view` reads at an offset of the segment, which is a multiple of four. -/
def read (s : State c) (view : Nat → Option Handle) (off : Nat) : Option (BitVec 32) :=
  (view (off / c.chunk)).map fun h => s.mem h (off % c.chunk / 4)

/-- The word that the owner reads. -/
def word (s : State c) (off : Nat) : Option (BitVec 32) := s.read (fun q => s.handles[q]?) off

/-- `cuMemsetD32` of a region through the mappings of a subscriber. -/
def fill (c : Config) (mp : OrdMap Nat Handle) (r : Region) (mem : Handle → Nat → BitVec 32) : Handle → Nat → BitVec 32 := fun h w =>
  if mp.toList.any fun x => x.2 == h && decide (r.off ≤ x.1 * c.chunk + 4 * w) && decide (x.1 * c.chunk + 4 * w < r.off + r.len) then r.tag
  else mem h w

/-- Every word of a region is its tag. -/
def Holds (s : State c) (r : Region) : Prop := ∀ o, 4 ∣ o → r.off ≤ o → o < r.off + r.len → s.word o = some r.tag

end State

open State

/-- A step of one process. New memory is none that the owner has; its contents are any. -/
inductive Step {c : Config} (s : State c) : State c → Prop
  | addChunk {idx : Nat} {rest : List (OwnerStep c.nsub)} {h : Handle} {x : Nat → BitVec 32} (hr : s.rest = .addChunk idx :: rest)
      (hh : h ∉ s.handles) : Step s { s with rest, handles := s.handles ++ [h], mem := Function.update s.mem h x }
  | send {i : Fin c.nsub} {t : MsgType} {idx : Nat} {rest : List (OwnerStep c.nsub)} (hr : s.rest = .send i t idx :: rest) :
      Step s (State.setSub { s with rest } i { s.subs i with inbox := (s.subs i).inbox ++ [s.msg idx t] })
  | await {i : Fin c.nsub} {rest : List (OwnerStep c.nsub)} {n : Nat} (hr : s.rest = .await i :: rest) (ha : (s.subs i).acks = n + 1) :
      Step s (State.setSub { s with rest } i { s.subs i with acks := n })
  | grow {rest : List (OwnerStep c.nsub)} (hr : s.rest = .grow :: rest) :
      Step s { s with rest, total := c.chunk * (c.nchk + 1), bump := c.chunk * c.nchk }
  | remapBacking {idx : Nat} {toHost : Bool} {rest : List (OwnerStep c.nsub)} {h old : Handle} (hr : s.rest = .remapBacking idx toHost :: rest)
      (ho : s.handles[idx]? = some old) (hh : h ∉ s.handles) :
      Step s { s with rest, handles := s.handles.set idx h, mem := Function.update s.mem h (s.mem old), onHost := s.onHost.insert idx toHost }
  | recv {i : Fin c.nsub} {g : Stage} {m : Msg} {q : List Msg} (hp : (s.subs i).pc = .wait g) (hi : (s.subs i).inbox = m :: q) :
      Step s (s.setSub i { s.subs i with pc := .got g m, inbox := q, fds := if m.fds = [] then (s.subs i).fds else m.fds })
  | act {i : Fin c.nsub} {g : Stage} {m : Msg} {u : Subscriber} (hp : (s.subs i).pc = .got g m) (hu : (s.subs i).act g m = some u) :
      Step s (s.setSub i u)
  | alloc {i : Fin c.nsub} {g : Stage} (hp : (s.subs i).pc = .alloc g) (hf : s.bump + allocLen ≤ s.total) :
      Step s (State.setSub { s with bump := s.bump + allocLen, allocs := s.allocs ++ [⟨s.bump, allocLen, tagOf g (c.pid i)⟩] } i
        { s.subs i with pc := .tag g ⟨s.bump, allocLen, tagOf g (c.pid i)⟩ })
  | tag {i : Fin c.nsub} {g : Stage} {r : Region} (hp : (s.subs i).pc = .tag g r)
      (hm : ∀ o, r.off ≤ o → o < r.off + r.len → o / c.chunk ∈ (s.subs i).mapped) :
      Step s (State.setSub { s with mem := fill c (s.subs i).mapped r s.mem } i { s.subs i with pc := .reply g })
  | reply {i : Fin c.nsub} {g : Stage} (hp : (s.subs i).pc = .reply g) :
      Step s (s.setSub i { s.subs i with pc := .wait g, acks := (s.subs i).acks + 1 })

/-- What the processes rely on. -/
structure State.Coherent {c : Config} (s : State c) : Prop where
  /-- A chunk that a subscriber has mapped is backed by the owner's memory of it. -/
  mapped : ∀ (i : Fin c.nsub) (q : Nat) (y : Handle), (s.subs i).mapped[q]? = some y → s.handles[q]? = some y
  /-- No subscriber has a chunk mapped while the owner moves it. -/
  moving : ∀ (idx : Nat) (toHost : Bool) (rest : List (OwnerStep c.nsub)), s.rest = .remapBacking idx toHost :: rest →
    ∀ i, (s.subs i).mapped[idx]? = none
  /-- A subscriber that verifies has every chunk. -/
  verifies : ∀ i : Fin c.nsub, (s.subs i).pc = .verify → ∀ q : Nat, (s.subs i).mapped[q]? = s.handles[q]?
  apart : s.allocs.Pairwise fun r r' => r.off + r.len ≤ r'.off
  inside : ∀ r ∈ s.allocs, r.off + r.len ≤ s.total
  /-- A region is still to be written, or it holds its tag; -/
  tagged : ∀ r ∈ s.allocs, (∃ i g, (s.subs i).pc = .tag g r) ∨ s.Holds r
  /-- when anyone verifies, all of them do. -/
  verified : (s.rest = [.verify] ∨ ∃ i, (s.subs i).pc = .verify) → ∀ r ∈ s.allocs, s.Holds r

/-- The states of a run. -/
inductive Reached {c : Config} : State c → Prop
  | start : Reached {}
  | step {s s' : State c} (h : Reached s) (hs : Step s s') : Reached s'

end Shared

end Vmem
