import Vmem.Lemmas.Capacity
import Vmem.Lemmas.SystemRuns

/-!
# The broker caps device memory

Many processes, one broker, any interleaving: what the connected processes hold on the device is covered by the broker's count,
and the broker keeps its count, but for the overhead, under the global limit.
-/

namespace Vmem

open CapacityAux PlayAux

/-- In every run without `Resync` whose true totals stay below 2^64, in every state: the bytes on the device that connected
processes hold, second copies of moving chunks included, are at most the global device count less the overhead of the connected
tenants that said `Hello`, and that is at most the global limit; and the bytes on the host held by the connected processes that
are between two calls are at most the global host count and the sizes of the `AllocFail`s on their way. -/
theorem broker_caps_memory (cfg : Global) (s : Sys)
    (h : s.Reached cfg fun s l s' => Plain s l ∧ ∀ l, s'.broker.owed l < 2 ^ 64) :
    s.deviceHeld ≤ s.broker.g.device.toNat - cfg.ctxOverhead.toNat * s.broker.greeted ∧
    cfg.ctxOverhead.toNat * s.broker.greeted ≤ s.broker.g.device.toNat ∧
    s.broker.g.device.toNat - cfg.ctxOverhead.toNat * s.broker.greeted ≤ cfg.vramLimit.toNat ∧
    s.hostHeld ≤ s.broker.g.host.toNat + s.allocFails := by
  have hinv := h.inv
  have hcap := Capped.of_reached h
  have hdevice : s.broker.g.device.toNat = cfg.ctxOverhead.toNat * s.broker.greeted + s.broker.bytes .device := by
    have hexact := Broker.exact hcap.conserved hcap.sound (hcap.owed .device)
    rw [owed_device, hinv.overhead] at hexact
    exact hexact
  have hhost : s.broker.g.host.toNat = s.broker.bytes .host := by
    have hexact := Broker.exact hcap.conserved hcap.sound (hcap.owed .host)
    rw [owed_host] at hexact
    exact hexact
  have hd := deviceHeld_le hinv hcap.whole
  have hh := hostHeld_le hinv hcap.whole
  have hlimit := hcap.cap
  rw [hdevice, hhost]
  refine ⟨?_, ?_, ?_, hh⟩ <;> omega

/-- A process opens with a broker that allows twenty bytes; in the middle of its first `create` it holds ten. -/
theorem broker_caps_memory_creating : ∃ s : Sys, s.Reached { vramLimit := 20, ctxOverhead := 3 }
      (fun s l s' => Plain s l ∧ ∀ l, s'.broker.owed l < 2 ^ 64) ∧ s.deviceHeld = 10 ∧
    s.deviceHeld ≤ s.broker.g.device.toNat - 3 * s.broker.greeted ∧
    s.broker.g.device.toNat - 3 * s.broker.greeted ≤ 20 := by
  have hend : ((Sys.start { vramLimit := 20, ctxOverhead := 3 }).play (fun s l s' => Plain s l ∧ ∀ l, s'.broker.owed l < 2 ^ 64)
      (fun _ => true) (asking ++ [.go 0])).any (fun s : Sys => decide (s.deviceHeld = 10)) = true := by
    decide
  obtain ⟨s, hs, hheld⟩ := (Option.any_eq_true _ _).1 hend
  have h := reached_play .start hs
  obtain ⟨hle, -, hcap, -⟩ := broker_caps_memory _ _ h
  exact ⟨s, h, of_decide_eq_true hheld, hle, hcap⟩

end Vmem
