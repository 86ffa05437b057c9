import Vmem.Lemmas.LinkLoss
import Vmem.Lemmas.Sockets

/-!
# Losing the broker (B4)

The result of a call follows from the outcomes of its driver calls and from the broker's answer to its request, whatever happens to
the link on the way.
-/

namespace Vmem

open LinkLossAux SocketsAux

/-- B4. For every call, every state of the backend and every way in which connecting, sending and receiving end: two runs with the
same outcomes of the driver calls and the same answer of the broker to the call's own request return the same, make the same driver
calls and leave the same chunks and counts; and without an answer, so does a run in local mode. From every state that calls lead to,
messages go over a connected descriptor on which nothing failed; a failed step of the link leaves it broken with its descriptor
closed; and the link is connected exactly if a descriptor is held. -/
theorem broker_loss_never_fails (call : ChunkCall) (b : VmemBackend) :
    (∀ (b' : VmemBackend) (r : Status × Chunk) (h : History), Prog.Runs History.world (call.program b) {} (r, b') h →
      (∀ (b₂ b₂' : VmemBackend) (r₂ : Status × Chunk) (h₂ : History), b.Alike b₂ →
        Prog.Runs History.world (call.program b₂) {} (r₂, b₂') h₂ → h₂.outcomes = h.outcomes → h₂.answer = h.answer →
        r₂ = r ∧ h₂.driver = h.driver ∧ b'.SameMemory b₂') ∧
      (h.answer = none → ∀ b₀ : VmemBackend, b.Alike b₀ → b₀.Local → ∃ b₀' : VmemBackend,
        Prog.Runs History.world (call.program b₀) {} (r, b₀') { driver := h.driver } ∧ b'.SameMemory b₀')) ∧
    ∀ w : Wire, b.Reached w → (b.link = .connected ↔ b.fd.isSome = true) ∧
      Code.wp Wire.world call.program (fun _ b' w' => (b'.link = .connected ↔ b'.fd.isSome = true) ∧ b'.fd = w'.live ∧
        w'.pending = none ∧ (w'.lost = true → b'.link = .broken ∧ b'.fd = none)) b { w with lost := false } := by
  refine ⟨fun b' r h hrun => ⟨?_, ?_⟩, fun w hw => ?_⟩
  · intro b₂ b₂' r₂ h₂ hb hrun₂ ho hans
    obtain ⟨c, hc, hoff⟩ := hrun.of_wp (program_wp call (.refl b) rfl)
    obtain ⟨c₂, hc₂, hoff₂⟩ := hrun₂.of_wp (program_wp call hb.symm rfl)
    rw [hans] at hoff₂
    obtain ⟨heq, hdriver⟩ := offline_deterministic hoff₂ hoff ho
    cases heq
    exact ⟨rfl, hdriver, (hc.trans hc₂.symm).memory⟩
  · intro hans b₀ hb hlocal
    obtain ⟨c, hc, hoff⟩ := hrun.of_wp (program_wp call hb rfl)
    rw [hans] at hoff
    exact ⟨c, runs_of_offline (runs_local call hlocal hoff), hc.memory⟩
  · have ht := reached_tracks hw
    refine ⟨ht.link, Code.wp_mono (keepsTrack_program (L := (· = .broken)) rfl call b _ ⟨ht.fd, ht.pending, ht.link, nofun⟩) ?_⟩
    intro r b' w' h'
    refine ⟨h'.link, h'.fd, h'.pending, fun hlost => ⟨h'.lost hlost, ?_⟩⟩
    have hno : ¬b'.fd.isSome = true := fun hsome => by
      have hcon := h'.link.2 hsome
      rw [h'.lost hlost] at hcon
      cases hcon
    exact Option.not_isSome_iff_eq_none.1 hno

/-- The broker is lost as an `Alloc` of ten bytes is sent: the chunk is created on the device, and by the same driver calls as in
local mode. -/
theorem broker_loss_never_fails_unsent : ∃ (b₀' : VmemBackend) (h : History),
    Prog.Runs History.world ((ChunkCall.create 10 {}).program {}) {} ((.ok, ⟨64, 10, .device⟩), b₀') { driver := h.driver } ∧
      h.outcomes = [.ok 64, .ok 7, .ok 0, .ok 0] := by
  obtain ⟨b', h, hrun, ho, ha⟩ : ∃ (b' : VmemBackend) (h : History), Prog.Runs History.world
      ((ChunkCall.create 10 {}).program { fd := some 3, link := .connected }) {} ((.ok, ⟨64, 10, .device⟩), b') h ∧
      h.outcomes = [.ok 64, .ok 7, .ok 0, .ok 0] ∧ h.answer = none := by
    refine ⟨_, _, Prog.runs_ask (.ok 64) rfl (Prog.runs_ask (some .etimedout) rfl (Prog.runs_ask () rfl (Prog.runs_ask (.ok 7) rfl
      (Prog.runs_ask (.ok 0) rfl (Prog.runs_ask (.ok 0) rfl (.ret _ _)))))), ?_, ?_⟩
    · decide
    · rfl
  obtain ⟨b₀', hrun₀, -⟩ := ((broker_loss_never_fails _ _).1 _ _ _ hrun).2 ha {} ⟨⟨rfl, rfl, rfl⟩, rfl, rfl, rfl⟩ ⟨rfl, .inl rfl⟩
  exact ⟨b₀', h, hrun₀, ho⟩

end Vmem
