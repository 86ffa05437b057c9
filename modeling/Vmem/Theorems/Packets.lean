import Vmem.Packets
import Vmem.Lemmas.BrokerRuns

/-!
# Malformed packets

A packet that is too short drops its sender. One that is too long is cut to the size of a message by `recv` and read as a message.
-/

namespace Vmem

namespace PacketsAux

/-- A packet is read as far as a message is long. -/
theorem step_packet {b : Broker} {fd : Fd} {t : Tenant} (ht : b.tenants[fd]? = some t) (bytes : List UInt8) :
    b.step (.packet fd bytes) = b.onReadable fd t ⟨min bytes.length sizeofMsg, false, .ofBytes bytes⟩ := by
  simp [Event.packet, Broker.step, ht]

/-- A short packet drops its sender. -/
theorem step_short {b : Broker} {fd : Fd} {t : Tenant} (ht : b.tenants[fd]? = some t) {bytes : List UInt8}
    (h : bytes.length < sizeofMsg) : b.step (.packet fd bytes) = b.dropped fd t bytes.length := by
  have hmin : min (bytes.length : Int) sizeofMsg = bytes.length := min_eq_left (by omega)
  rw [step_packet ht, hmin]
  unfold Broker.onReadable Broker.dropped
  by_cases h0 : bytes.length = 0
  · simp [h0, Broker.onDisconnect]
  · have hpos : ¬((bytes.length : Int) ≤ 0) := by omega
    have hne : (bytes.length : Int) ≠ sizeofMsg := by omega
    simp [h0, hne, Broker.onDisconnect]

/-- A packet that is too long is read as the message it starts with. -/
theorem step_long {b : Broker} {fd : Fd} {t : Tenant} (ht : b.tenants[fd]? = some t) {bytes : List UInt8}
    (h : sizeofMsg < bytes.length) : b.step (.packet fd bytes) = b.onMsg fd t (.ofBytes bytes) := by
  have hmin : min (bytes.length : Int) sizeofMsg = sizeofMsg := min_eq_right (by omega)
  rw [step_packet ht, hmin]
  simp [Broker.onReadable, sizeofMsg]

end PacketsAux

open PacketsAux

/-- In every state of the broker, a packet of the wrong length drops its sender, and nothing else, exactly if it is shorter than a
message. -/
theorem malformed_drops_sender (cfg : Global) (es : List Event) (fd : Fd) (t : Tenant)
    (ht : ((Broker.start cfg).run es).tenants[fd]? = some t) (bytes : List UInt8) (hlen : bytes.length ≠ sizeofMsg) :
    ((Broker.start cfg).run es).step (.packet fd bytes) = ((Broker.start cfg).run es).dropped fd t bytes.length ↔
      bytes.length < sizeofMsg := by
  generalize (Broker.start cfg).run es = b at ht
  refine ⟨fun h => ?_, step_short ht⟩
  by_contra hge
  have hlong : sizeofMsg < bytes.length := by omega
  rw [step_long ht hlong] at h
  have hself := congrArg (fun o : Outcome => o.b.tenants[fd]?) h
  simp [Broker.onMsg, Broker.dropped] at hself

/-- Ten bytes from a tenant with a chunk. -/
theorem malformed_drops_sender_short : ∃ t : Tenant, t.device = 10 ∧
    ((Broker.start {}).run [.connect 5 1, .msg 5 { type := .alloc, ptr := 1, size := 10 }]).tenants[5]? = some t ∧
    ((Broker.start {}).run [.connect 5 1, .msg 5 { type := .alloc, ptr := 1, size := 10 }]).step
        (.packet 5 (List.replicate 10 0)) =
      ((Broker.start {}).run [.connect 5 1, .msg 5 { type := .alloc, ptr := 1, size := 10 }]).dropped 5 t 10 :=
  ⟨_, rfl, rfl, (malformed_drops_sender {} _ 5 _ rfl (List.replicate 10 0) (by decide)).2 (by decide)⟩

/-- A packet of 57 zero bytes is answered like a `Hello`, and its sender stays. -/
theorem malformed_drops_sender_false : ¬∀ (cfg : Global) (es : List Event) (fd : Fd) (t : Tenant) (bytes : List UInt8),
    ((Broker.start cfg).run es).tenants[fd]? = some t → bytes.length ≠ sizeofMsg →
      ((Broker.start cfg).run es).step (.packet fd bytes) = ((Broker.start cfg).run es).dropped fd t bytes.length := by
  intro hall
  have h := hall {} [.connect 5 1] 5 { pid := 1 } (List.replicate 57 0) rfl (by decide)
  have hreply := congrArg Outcome.reply h
  revert hreply
  decide

end Vmem
