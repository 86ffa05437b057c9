import Vmem.Broker

/-!
# Packets

What `on_readable` makes of a packet: `recv` copies at most `sizeof(Msg)` bytes of it, returns how many and discards the rest, and
the bytes are read as a `Msg` (`protocol.h`), little-endian.
-/

namespace Vmem

/-- The number in the `n` bytes at an offset. -/
def leBytes (bytes : List UInt8) (off n : Nat) : Nat := ((bytes.drop off).take n).foldr (fun b x => b.toNat + 256 * x) 0

def MsgType.ofRaw (raw : BitVec 32) : MsgType :=
  if raw = 0 then .hello
  else if raw = 1 then .alloc
  else if raw = 2 then .allocFail
  else if raw = 3 then .free
  else if raw = 4 then .move
  else if raw = 5 then .moveDone
  else if raw = 6 then .resync
  else .other raw

def LocField.ofRaw (raw : BitVec 32) : LocField :=
  if raw = 0 then .device else if raw = 1 then .host else .other raw

/-- The message in the first bytes of a packet. -/
def Msg.ofBytes (bytes : List UInt8) : Msg :=
  { type := .ofRaw (BitVec.ofNat 32 (leBytes bytes 0 4))
    loc := .ofRaw (BitVec.ofNat 32 (leBytes bytes 4 4))
    ptr := BitVec.ofNat 64 (leBytes bytes 8 8)
    size := BitVec.ofNat 64 (leBytes bytes 16 8)
    name := (bytes.drop 24).take nameLen }

/-- A packet arrives from a tenant. -/
def Event.packet (fd : Fd) (bytes : List UInt8) : Event :=
  .readable fd ⟨min bytes.length sizeofMsg, false, .ofBytes bytes⟩

/-- The broker after a packet of a length that drops its sender `t`: the tenant is gone, its counts are subtracted, the others are
as they were, nothing is answered, and what is logged depends on the length of the packet alone. -/
def Broker.dropped (b : Broker) (fd : Fd) (t : Tenant) (length : Nat) : Outcome :=
  { b := { tenants := b.tenants.erase fd, g := { b.g with device := b.g.device - t.device, host := b.g.host - t.host } }
    log := (if length = 0 then [] else [.wrongSize t.pid length]) ++ [.disconnect t.pid t.name] }

end Vmem
