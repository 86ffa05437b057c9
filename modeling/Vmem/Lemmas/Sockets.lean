import Vmem.Lemmas.LinkFrame

/-!
# The socket of a backend

Whatever the calls answer, the backend's descriptor and link stay in step with the state of the socket: every message goes over a
connected descriptor on which nothing failed, and one that failed is closed at once.
-/

namespace Vmem

/-- The object between two steps of the link: it holds the live descriptor and no other, `link` is `Connected` exactly if it holds
one, and after a failed step the link is as `L` says. -/
structure Tracks (L : Link → Prop) (b : VmemBackend) (w : Wire) : Prop where
  fd : b.fd = w.live
  pending : w.pending = none
  link : b.link = .connected ↔ b.fd.isSome = true
  lost : w.lost = true → L b.link

namespace SocketsAux

open VmemBackend Code

variable {α : Type} {L : Link → Prop}

/-- Code that keeps the descriptor and the link in step with the socket. -/
abbrev KeepsTrack (L : Link → Prop) (x : BackendM α) : Prop := Keeps Wire.world (Tracks L) x

/-! ## The link -/

/-- The one descriptor that is still open is closed, failed or not. -/
theorem disconnectBroker_wp (next : Link) {Q : Unit → VmemBackend → Wire → Prop} {b : VmemBackend} {w : Wire}
    (h : (w.pending = none ∧ b.fd = w.live) ∨ (w.live = none ∧ b.fd = w.pending))
    (hQ : Q () { b with fd := none, link := next } { w with live := none, pending := none }) :
    Code.wp Wire.world (disconnectBroker next) Q b w := by
  unfold disconnectBroker closeFd
  rw [Code.wp_bind, Code.wp_bind, Code.wp_get]
  obtain ⟨live, pending, lost⟩ := w
  cases hfd : b.fd with
  | none =>
    rcases h with ⟨hp, hl⟩ | ⟨hl, hp⟩
    all_goals
      dsimp only at hp hl
      rw [hfd] at *
      subst hp hl
      exact hQ
  | some fd =>
    refine ⟨?_, ?_⟩
    · rcases h with ⟨hp, hl⟩ | ⟨hl, hp⟩
      · exact .inr ⟨hp, by rw [← hl, hfd]⟩
      · exact .inl (by rw [← hp, hfd])
    · rintro r w' rfl
      have hw : ({ live, pending, lost } : Wire).record (.close fd) r = ⟨none, none, lost⟩ := by
        rcases h with ⟨hp, hl⟩ | ⟨hl, hp⟩
        all_goals
          dsimp only at hp hl
          subst hl
        · simp [Wire.record, hp]
        · simp [Wire.record]
      rw [hw]
      exact hQ

/-- A failed send or receive: the descriptor is closed and the link broken. -/
theorem break_tracks (hL : L .broken) (e : ErrText) (a : α) {b : VmemBackend} {fd : Option Fd} (hfd : b.fd = fd) :
    Code.wp Wire.world (do
      modify fun b => { b with err := e }
      disconnectBroker .broken
      pure a)
      (fun a' b' w' => a' = a ∧ Tracks L b' w') b ⟨none, fd, true⟩ := by
  rw [Code.wp_bind, Code.wp_modify, Code.wp_bind]
  refine disconnectBroker_wp .broken (.inr ⟨rfl, hfd⟩) ?_
  exact ⟨rfl, rfl, rfl, ⟨nofun, nofun⟩, fun _ => hL⟩

/-- A message is sent, or the link broken; what was sent went over the live descriptor. -/
theorem sendMsg_tracks (hL : L .broken) (m : Msg) {b : VmemBackend} {w : Wire} (h : Tracks L b w) :
    Code.wp Wire.world (sendMsg m) (fun sent b' w' => Tracks L b' w' ∧ (sent = true → b'.link = .connected)) b w := by
  unfold sendMsg
  rw [Code.wp_bind, Code.wp_get]
  by_cases hlink : b.link = .connected
  · rw [if_neg (by simpa using hlink), Code.wp_bind, ask, Code.wp_call]
    have hheld : b.fd ≠ none := Option.isSome_iff_ne_none.1 (h.link.1 hlink)
    refine ⟨⟨hheld, h.fd, h.pending⟩, ?_⟩
    rintro r w' rfl
    cases r with
    | none => exact ⟨h, fun _ => hlink⟩
    | some e =>
      refine Code.wp_mono (break_tracks hL (.send e) false rfl) ?_
      rintro sent b' w' ⟨rfl, ht⟩
      exact ⟨ht, nofun⟩
  · rw [if_pos (by simpa using hlink)]
    exact ⟨h, nofun⟩

/-- A message that cannot be sent breaks the link, and its descriptor is closed. -/
theorem keepsTrack_sendMsg (hL : L .broken) (m : Msg) : KeepsTrack L (sendMsg m) := by
  intro b w h
  exact Code.wp_mono (sendMsg_tracks hL m h) fun _ _ _ h => h.1

/-- So does one whose reply does not come. -/
theorem keepsTrack_sendAndRecv (hL : L .broken) (m : Msg) : KeepsTrack L (sendAndRecv m) := by
  intro b w h
  unfold sendAndRecv
  refine Code.wp_seq (sendMsg_tracks hL m h) ?_
  rintro sent b₁ w₁ ⟨h₁, hlink⟩
  cases sent with
  | false => exact h₁
  | true =>
    have hheld : b₁.fd ≠ none := Option.isSome_iff_ne_none.1 (h₁.link.1 (hlink rfl))
    simp only [Bool.not_true, Bool.false_eq_true, if_false]
    rw [Code.wp_bind, Code.wp_get, Code.wp_bind, ask, Code.wp_call]
    refine ⟨⟨hheld, h₁.fd, h₁.pending⟩, ?_⟩
    rintro r w' rfl
    cases r with
    | reply rep => exact h₁
    | error e => exact Code.wp_mono (break_tracks hL (.recv e) none rfl) fun _ _ _ h => h.2
    | short n => exact Code.wp_mono (break_tracks hL .recvClosed none rfl) fun _ _ _ h => h.2

/-- A new connection: what was held before is given up, and a failed step leaves the object as it was. -/
theorem connectBroker_tracks (hL : L .broken) {b : VmemBackend} {w : Wire} (h : Tracks L b w) (hl : L b.link) :
    Code.wp Wire.world connectBroker (fun _ b' w' => Tracks L b' w') b w := by
  obtain ⟨hfd, hpending, hlink, hlost⟩ := h
  unfold connectBroker
  rw [Code.wp_bind, Code.wp_get]
  split
  · exact ⟨hfd, hpending, hlink, hlost⟩
  · rw [Code.wp_bind, ask, Code.wp_call]
    refine ⟨hpending, ?_⟩
    rintro r w' rfl
    cases r with
    | error e => exact ⟨hfd, hpending, hlink, fun _ => hl⟩
    | ok fd =>
      -- a descriptor that is only to be closed
      have hclosed (e : Errno) (lost : Bool) : Code.wp Wire.world (do
          ask (.close fd)
          pure (some e))
          (fun _ b' w' => Tracks L b' w') b ⟨w.live, some fd, lost⟩ := by
        rw [Code.wp_bind, ask, Code.wp_call]
        refine ⟨.inl rfl, ?_⟩
        rintro r w' rfl
        exact ⟨hfd, rfl, hlink, fun _ => hl⟩
      dsimp only
      rw [Code.wp_bind, ask, Code.wp_call]
      refine ⟨rfl, ?_⟩
      rintro r w' rfl
      cases r with
      | some e => exact hclosed e _
      | none =>
        dsimp only
        rw [Code.wp_bind, ask, Code.wp_call]
        refine ⟨rfl, ?_⟩
        rintro r w' rfl
        cases r with
        | some e => exact hclosed e _
        | none =>
          show Code.wp Wire.world (greet fd) _ b ⟨some fd, none, false⟩
          unfold greet
          rw [Code.wp_bind, Code.wp_modify, Code.wp_bind, Code.wp_get]
          refine Code.wp_seq (keepsTrack_sendAndRecv hL _ _ _ ⟨rfl, rfl, ⟨fun _ => rfl, fun _ => rfl⟩, nofun⟩) ?_
          intro rep b' w' h'
          exact h'

/-- Each `Resync` keeps track of the descriptor. -/
theorem keepsTrack_resyncAll (hL : L .broken) (cs : List (Ptr × Rec)) : KeepsTrack L (resyncAll cs) := by
  induction cs with
  | nil => exact keeps_pure _
  | cons p cs ih => exact keeps_bind (keepsTrack_sendMsg hL _) fun _ => ih

/-- A reconnect closes the old descriptor before it opens a new one. -/
theorem keepsTrack_reconnect (hL : L .broken) : KeepsTrack L reconnect := by
  refine keeps_bind keeps_get fun b₀ => keeps_ite ?_ ?_
  · exact keeps_bind (keeps_modify fun b w h => ⟨h.fd, h.pending, h.link, h.lost⟩) fun _ => keeps_pure _
  · intro b w h
    rw [Code.wp_bind]
    refine disconnectBroker_wp .broken (.inl ⟨h.pending, h.fd⟩) ?_
    refine Code.wp_seq (connectBroker_tracks hL ⟨rfl, rfl, ⟨nofun, nofun⟩, fun _ => hL⟩ hL) ?_
    intro e b₁ w₁ h₁
    cases e with
    | some e => exact ⟨h₁.fd, h₁.pending, h₁.link, h₁.lost⟩
    | none =>
      refine Code.wp_seq (keepsTrack_resyncAll hL _ b₁ w₁ h₁) ?_
      intro _ b₂ w₂ h₂
      exact h₂

/-! ## The calls -/

/-- A call that is not of the socket leaves its state. -/
theorem record_other {w : Wire} {o : Op} {r : o.Answer} (h : o.ofLink = false) : w.record o r = w := by
  cases o
  all_goals first
    | rfl
    | exact nomatch h

/-- Calls that are not about the link are permitted. -/
theorem permits_other {w : Wire} {o : Op} (h : o.ofLink = false) : w.permits o := by
  cases o
  all_goals trivial

/-- What the object and the socket have to do with each other is kept by every call. -/
theorem linkFrame (hL : L .broken) : LinkFrame Wire.world (Tracks L) where
  object h hk := ⟨by rw [hk.fd, h.fd], h.pending, by rw [hk.link, hk.fd]; exact h.link, by rw [hk.link]; exact h.lost⟩
  other ho := keeps_call fun b w h => ⟨permits_other ho, fun r w' hr => by rwa [hr, record_other ho]⟩
  send := keepsTrack_sendMsg hL
  exchange := keepsTrack_sendAndRecv hL
  reconnect := keepsTrack_reconnect hL

/-- Every call about chunks keeps track of the descriptor. -/
theorem keepsTrack_program (hL : L .broken) (c : ChunkCall) : KeepsTrack L c.program := (linkFrame hL).program c

/-- Connecting while opening keeps track of it, with and without a broker. -/
theorem keepsTrack_openDaemon (c : BackendConfig) (invocation : List UInt8) :
    KeepsTrack (fun _ => True) (openDaemon c invocation) := by
  have hframe := linkFrame (L := fun _ => True) trivial
  unfold openDaemon
  split
  · exact keeps_pure _
  · refine keeps_bind (hframe.modify fun _ => ⟨rfl, rfl, rfl⟩) fun _ => keeps_bind (fun b w h => ?_) fun e => ?_
    · exact connectBroker_tracks trivial h trivial
    · cases e with
      | none => exact keeps_pure _
      | some e => exact keeps_ite (keeps_pure _) (keeps_bind (hframe.modify fun _ => ⟨rfl, rfl, rfl⟩) fun _ => keeps_pure _)

/-- So does `open`, which may fail before. -/
theorem keepsTrack_openBackend (c : BackendConfig) (invocation : List UInt8) : KeepsTrack (fun _ => True) (openBackend c invocation) :=
  (linkFrame trivial).openBackend (fun _ h => ⟨h.fd, h.pending, h.link, h.lost⟩) (keepsTrack_openDaemon _ _)

/-- So does `close`, after which there is none. -/
theorem keepsTrack_closeBackend : KeepsTrack (fun _ => True) closeBackend := by
  intro b w h
  exact disconnectBroker_wp .localMode (.inl ⟨h.pending, h.fd⟩) ⟨rfl, rfl, ⟨nofun, nofun⟩, fun _ => trivial⟩

/-- Between calls the object is in step with its socket. -/
theorem reached_tracks {b : VmemBackend} {w : Wire} (h : b.Reached w) : Tracks (fun _ => True) b w := by
  induction h with
  | start => exact ⟨rfl, rfl, ⟨nofun, nofun⟩, nofun⟩
  | wipe h ih => exact ⟨ih.fd, ih.pending, ih.link, nofun⟩
  | opened h hr ih => exact hr.of_wp (keepsTrack_openBackend _ _ _ _ ih)
  | closed h hr ih => exact hr.of_wp (keepsTrack_closeBackend _ _ ih)
  | reconnected h hr ih => exact hr.of_wp (keepsTrack_reconnect trivial _ _ ih)
  | called h hr ih => exact hr.of_wp (keepsTrack_program trivial _ _ _ ih)

end SocketsAux

end Vmem
