import Vmem.System
import Vmem.Lemmas.Records

/-!
# The system as one client sees it

A client's connection, reduced to the record its tenant will have once the messages on the way are read (`Peer`). Delivery does
not change it, so a client's program can be reasoned about alone: `view ov` is its world, whose answers are any failure, and
what a broker with the overhead `ov` may answer. The world permits a message only if it is orderly, and any call only while the
record covers the memory the client holds on the device.
-/

namespace Vmem

/-- A socket as its client sees it: not connected, open with the record after all messages, or waiting for a reply to the request
`m`. `whole` is that of the connection. -/
inductive Peer
  | unconnected
  | idle (t : Tenant) (whole : Bool)
  | awaiting (t : Tenant) (m : Msg) (whole : Bool)

/-- A client's part of the driver and its socket. -/
structure View where
  gpu : Gpu := {}
  sock : Option (Fd × Peer) := none

/-- There is room for `n` more bytes on the device: the record covers the copies there and `n`. Nothing is said of a connection
that is not whole. -/
def Peer.Room (n : ℕ) : Peer → Prop
  | .idle t true => n ≤ t.bytes .device
  | .awaiting t _ true => n ≤ t.bytes .device
  | _ => True

def View.Room (v : View) (n : ℕ) : Prop := ∀ (fd : Fd) (p : Peer), v.sock = some (fd, p) → p.Room (v.gpu.bytes .device + n)

/-- The other end after a message was sent. -/
def Peer.sent (ov : Size) (m : Msg) : Peer → Peer
  | .idle t w => if m.type.isRequest then .awaiting t m w else .idle (t.applied ov m) (w && decide (m.type ≠ .resync))
  | p => p

/-- The world of a client. -/
def view (ov : Size) : Prog.World Op Op.Answer View where
  permits o v := v.Room 0 ∧
    match o with
    | .socket => v.sock = none
    | .setsockopt fd _ => v.sock = some (fd, .unconnected)
    | .connect fd _ => v.sock = some (fd, .unconnected)
    | .close fd => ∃ p, v.sock = some (fd, p)
    | .send fd m => ∃ f t w, fd = some f ∧ v.sock = some (f, .idle t w) ∧ t.Orderly m
    | .recv fd => ∃ f t m w, fd = some f ∧ v.sock = some (f, .awaiting t m w)
    | .atFailed => False
    | _ => True
  answers
    | .cu c, v, r, v' => ∃ g, v.gpu.Calls c r g ∧ v' = { v with gpu := g }
    | .drop c, v, _, v' => ∃ g, v.gpu.Drops c g ∧ v' = { v with gpu := g }
    | .socket, v, r, v' =>
      match r with
      | .error _ => v' = v
      | .ok fd => v' = { v with sock := some (fd, .unconnected) }
    | .connect fd _, v, r, v' =>
      match r with
      | some _ => v' = v
      | none => ∃ pid, v' = { v with sock := some (fd, .idle { pid } v.gpu.copies.isEmpty) }
    | .close _, v, _, v' => v' = { v with sock := none }
    | .send _ m, v, r, v' =>
      match r with
      | some _ => v' = v
      | none => v' = { v with sock := v.sock.map fun p => (p.1, p.2.sent ov m) }
    | .recv _, v, r, v' =>
      match r with
      | .reply rep => ∃ f t m w t', v.sock = some (f, .awaiting t m w) ∧ t.Answers ov m rep t' ∧
          v' = { v with sock := some (f, .idle t' w) }
      | _ => v' = v
    | .setsockopt _ _, v, _, v' => v' = v
    | .cudaSetDevice _, v, _, v' => v' = v
    | .cudaFreeNull, v, _, v' => v' = v
    | .attribute _ _, v, _, v' => v' = v
    | .atFailed, _, _, _ => False

/-- The record of a chunk, as the broker keeps it. -/
def Rec.entry (r : Rec) : ChunkRec := ⟨r.size, r.loc.field⟩

namespace ViewAux

open VmemBackend

variable {α γ : Type} {ov : Size}

/-! ## The link of a backend -/

/-- The backend and its socket agree, and the record of an open connection satisfies `P`. -/
def Linked (P : Tenant → Bool → Prop) (b : VmemBackend) (v : View) : Prop :=
  (b.link = .connected ∧ ∃ fd t w, b.fd = some fd ∧ v.sock = some (fd, .idle t w) ∧ P t w) ∨
    (b.link ≠ .connected ∧ b.fd = none ∧ v.sock = none)

/-- There is no connection. -/
def Unlinked (b : VmemBackend) (v : View) : Prop := b.link ≠ .connected ∧ b.fd = none ∧ v.sock = none

/-- What is known of the tenant may be weakened. -/
theorem Linked.mono {P P' : Tenant → Bool → Prop} {b : VmemBackend} {v : View} (h : Linked P b v)
    (hP : ∀ t w, P t w → P' t w) : Linked P' b v := by
  rcases h with ⟨hl, fd, t, w, hfd, hs, hp⟩ | h
  · exact .inl ⟨hl, fd, t, w, hfd, hs, hP t w hp⟩
  · exact .inr h

/-- The parts of the object that the link uses. -/
structure SameLink (b b' : VmemBackend) : Prop where
  link : b'.link = b.link
  fd : b'.fd = b.fd

/-- It depends on the link and the descriptor only. -/
theorem Linked.of_same {P : Tenant → Bool → Prop} {b b' : VmemBackend} {v v' : View} (h : Linked P b v) (hb : SameLink b b')
    (hv : v'.sock = v.sock) : Linked P b' v' := by
  unfold Linked at h ⊢
  rw [hb.link, hb.fd, hv]
  exact h

/-- What the records cover, a linked client may hold. -/
theorem Linked.room {P : Tenant → Bool → Prop} {b : VmemBackend} {v : View} {n : ℕ} (h : Linked P b v)
    (hP : ∀ t, P t true → v.gpu.bytes .device + n ≤ t.bytes .device) : v.Room n := by
  intro fd p hp
  rcases h with ⟨-, fd', t, w, -, hs, ht⟩ | ⟨-, -, hs⟩
  · rw [hs] at hp
    cases hp
    cases w with
    | false => trivial
    | true => exact hP t ht
  · rw [hs] at hp
    cases hp

/-- Without a link anything is known of the tenant. -/
theorem Unlinked.linked {P : Tenant → Bool → Prop} {b : VmemBackend} {v : View} (h : Unlinked b v) : Linked P b v := .inr h

/-- Without a link there is no limit to keep. -/
theorem Unlinked.room {b : VmemBackend} {v : View} (h : Unlinked b v) (n : ℕ) : v.Room n := by
  intro fd p hp
  rw [h.2.2] at hp
  cases hp

/-! ## Driver calls -/

/-- A checked call. -/
theorem cu_view {c : CuCall} {what : String} {Q : Status × BitVec 64 → VmemBackend → View → Prop} {b : VmemBackend} {v : View}
    (hr : v.Room 0) (hok : ∀ x, v.gpu.Fresh c x → Q (.ok, x) b { v with gpu := v.gpu.after c x })
    (hfail : ∀ s b', s ≠ .ok → b.SameMemory b' → SameLink b b' → Q (s, 0) b' v) :
    Code.wp (view ov) (cu c what) Q b v := by
  refine Code.wp_bind.2 ⟨⟨hr, trivial⟩, fun r v' h => ?_⟩
  obtain ⟨g, hg, rfl⟩ := h
  cases r with
  | ok x =>
    obtain ⟨hf, rfl⟩ := hg
    exact hok x hf
  | error e =>
    obtain rfl : g = v.gpu := hg
    refine hfail _ _ ?_ ⟨rfl, rfl, rfl⟩ ⟨rfl, rfl⟩
    split <;> decide

/-- A clean-up call does what the driver does with it, seen or unseen. -/
theorem drop_view {c : CuCall} {Q : Unit → VmemBackend → View → Prop} {b : VmemBackend} {v : View} (hr : v.Room 0)
    (h : ∀ g, v.gpu.Drops c g → Q () b { v with gpu := g }) : Code.wp (view ov) (drop c) Q b v := by
  refine ⟨⟨hr, trivial⟩, fun r v' hv => ?_⟩
  obtain ⟨g, hg, rfl⟩ := hv
  exact h g hg

/-! ## The socket -/

/-- A permitted call has the answers of the view. -/
theorem ask_view {i : Op} {Q : i.Answer → VmemBackend → View → Prop} {b : VmemBackend} {v : View} (hp : (view ov).permits i v)
    (h : ∀ r v', (view ov).answers i v r v' → Q r b v') : Code.wp (view ov) (ask i) Q b v :=
  ⟨hp, h⟩

/-- Closing the link closes the descriptor, if there is one. -/
theorem disconnectBroker_view {next : Link} {Q : Unit → VmemBackend → View → Prop} {b : VmemBackend} {v : View} (hr : v.Room 0)
    (hfd : (b.fd = none ∧ v.sock = none) ∨ ∃ fd p, b.fd = some fd ∧ v.sock = some (fd, p))
    (h : Q () { b with fd := none, link := next } { v with sock := none }) :
    Code.wp (view ov) (disconnectBroker next) Q b v := by
  refine Code.wp_bind.2 (Code.wp_bind.2 (Code.wp_get.2 ?_))
  rcases hfd with ⟨hfd, hs⟩ | ⟨fd, p, hfd, hs⟩
  · rw [hfd]
    have hv : { v with sock := none } = v := by
      cases v
      simp_all
    rw [hv] at h
    exact h
  · rw [hfd]
    refine ⟨⟨hr, p, hs⟩, fun _ v' hv => ?_⟩
    obtain rfl : v' = { v with sock := none } := hv
    exact h

/-- After a failed send or receive there is no connection; the chunks are as they were. -/
def Lost (b : VmemBackend) (v : View) (b' : VmemBackend) (v' : View) : Prop :=
  b.SameMemory b' ∧ v' = { v with sock := none } ∧ Unlinked b' v'

/-- An orderly message is sent, or the link is lost. -/
theorem sendMsg_view {m : Msg} {P : Tenant → Bool → Prop} {Q : Bool → VmemBackend → View → Prop} {b : VmemBackend} {v : View}
    (hl : Linked P b v) (hr : v.Room 0) (ho : ∀ t w, P t w → t.Orderly m)
    (hsent : ∀ fd t w, b.link = .connected → b.fd = some fd → v.sock = some (fd, .idle t w) → P t w →
      Q true b { v with sock := some (fd, (Peer.idle t w).sent ov m) })
    (hlost : ∀ b' v', Lost b v b' v' → Q false b' v') : Code.wp (view ov) (sendMsg m) Q b v := by
  refine Code.wp_bind.2 (Code.wp_get.2 ?_)
  rcases hl with ⟨hlink, fd, t, w, hfd, hs, ht⟩ | hun
  · simp only [hlink, ne_eq, not_true_eq_false, if_false]
    refine Code.wp_bind.2 (ask_view ⟨hr, fd, t, w, hfd, hs, ho t w ht⟩ fun r v' hv => ?_)
    cases r with
    | none =>
      obtain rfl : v' = _ := hv
      rw [hs]
      exact hsent fd t w hlink hfd hs ht
    | some e =>
      obtain rfl : v' = v := hv
      refine Code.wp_bind.2 (Code.wp_modify.2 (Code.wp_bind.2 ?_))
      refine disconnectBroker_view hr (.inr ⟨fd, _, hfd, hs⟩) ?_
      exact hlost _ _ ⟨⟨rfl, rfl, rfl⟩, rfl, nofun, rfl, rfl⟩
  · have hv : v = { v with sock := none } := by
      cases v
      simp_all
    simp only [hun.1, ne_eq, not_false_eq_true, if_true]
    exact hlost b v ⟨.refl b, hv, hun⟩

/-- A message without a reply: the record is what the message makes of it, or the link is lost. -/
theorem report_view {m : Msg} {P R : Tenant → Bool → Prop} {b : VmemBackend} {v : View} (hreq : m.type.isRequest = false)
    (hl : Linked P b v) (hr : v.Room 0) (ho : ∀ t w, P t w → t.Orderly m)
    (hP : ∀ t w, P t w → R (t.applied ov m) (w && decide (m.type ≠ .resync))) :
    Code.wp (view ov) (sendMsg m) (fun _ b' v' => b.SameMemory b' ∧ v'.gpu = v.gpu ∧ Linked R b' v') b v := by
  refine sendMsg_view hl hr ho (fun fd t w hlink hfd _ ht => ?_) fun b' v' h => ?_
  · refine ⟨.refl b, rfl, .inl ⟨hlink, fd, _, _, hfd, ?_, hP t w ht⟩⟩
    simp [Peer.sent, hreq]
  · obtain ⟨hb, rfl, hun⟩ := h
    exact ⟨hb, rfl, hun.linked⟩

/-- A request: a reply that the broker may give, or the link is lost. -/
theorem request_view {m : Msg} {P : Tenant → Bool → Prop} {Q : Option Reply → VmemBackend → View → Prop} {b : VmemBackend}
    {v : View} (hreq : m.type.isRequest = true) (hl : Linked P b v) (hr : v.Room 0) (ho : ∀ t w, P t w → t.Orderly m)
    (hgot : ∀ rep fd t w t', b.link = .connected → b.fd = some fd → P t w → t.Answers ov m rep t' →
      Q (some rep) b { v with sock := some (fd, .idle t' w) })
    (hlost : ∀ b' v', Lost b v b' v' → Q none b' v') : Code.wp (view ov) (sendAndRecv m) Q b v := by
  refine Code.wp_bind.2 (sendMsg_view hl hr ho (fun fd t w hlink hfd hs ht => ?_) fun b' v' h => hlost b' v' h)
  have hsent : (Peer.idle t w).sent ov m = .awaiting t m w := by simp [Peer.sent, hreq]
  have hroom : View.Room { v with sock := some (fd, .awaiting t m w) } 0 := by
    intro fd' p hp
    cases hp
    cases w with
    | false => trivial
    | true => exact hr fd (.idle t true) hs
  rw [hsent]
  simp only [Bool.not_true, Bool.false_eq_true, if_false]
  refine Code.wp_bind.2 (Code.wp_get.2 (Code.wp_bind.2 (ask_view ⟨hroom, fd, t, m, w, hfd, rfl⟩ fun r v' hv => ?_)))
  -- a failed receive breaks the link
  have hfail : ∀ (e : ErrText), Code.wp (view ov)
      (do modify fun b => { b with err := e }; disconnectBroker .broken; pure none) Q b
      { v with sock := some (fd, .awaiting t m w) } := by
    intro e
    refine Code.wp_bind.2 (Code.wp_modify.2 (Code.wp_bind.2 ?_))
    refine disconnectBroker_view hroom (.inr ⟨fd, _, hfd, rfl⟩) ?_
    exact hlost _ _ ⟨⟨rfl, rfl, rfl⟩, rfl, nofun, rfl, rfl⟩
  cases r with
  | reply rep =>
    obtain ⟨fd', t₀, m₀, w₀, t', hs', hans, rfl⟩ := hv
    cases hs'
    exact hgot rep fd t w t' hlink hfd ht hans
  | error e =>
    obtain rfl : v' = { v with sock := some (fd, .awaiting t m w) } := hv
    exact hfail _
  | short n =>
    obtain rfl : v' = { v with sock := some (fd, .awaiting t m w) } := hv
    exact hfail _

/-! ## Connecting -/

/-- The record of a new connection. -/
def Fresh (g : Gpu) (t : Tenant) (w : Bool) : Prop := (∃ pid, t = { pid }) ∧ (w = true → g.copies = ∅)

/-- A greeted record with the chunks `M` on a connection that, if it is whole, was made without copies. -/
def Listed (ov : Size) (M : OrdMap Ptr ChunkRec) (g : Gpu) (t : Tenant) (w : Bool) : Prop :=
  t.Is ov M none ∧ (w = true → g.copies = ∅)

/-- A process that is all on the broker's record has room while it holds nothing. -/
theorem room_of_empty {P : Tenant → Bool → Prop} {b : VmemBackend} {v : View} (h : Linked P b v)
    (hP : ∀ t w, P t w → w = true → v.gpu.copies = ∅) : v.Room 0 := by
  refine h.room fun t ht => ?_
  rw [Gpu.bytes, hP t true ht rfl]
  simp

/-- The greeting is answered, and the broker has no chunk of the process, or the link is lost. -/
theorem greet_view {fd : Fd} {b : VmemBackend} {v : View} {t : Tenant} {w : Bool} (hs : v.sock = some (fd, .idle t w))
    (ht : Fresh v.gpu t w) :
    Code.wp (view ov) (greet fd) (fun e b' v' => b.SameMemory b' ∧ v'.gpu = v.gpu ∧
      ((e = none ∧ Linked (Listed ov ∅ v.gpu) b' v') ∨ ((∃ x, e = some x) ∧ Unlinked b' v'))) b v := by
  refine Code.wp_bind.2 (Code.wp_modify.2 (Code.wp_bind.2 (Code.wp_get.2 (Code.wp_bind.2 ?_))))
  have hl : Linked (Fresh v.gpu) { b with fd := some fd, link := .connected } v := .inl ⟨rfl, fd, t, w, rfl, hs, ht⟩
  refine request_view rfl hl (room_of_empty hl fun t w h => h.2) ?_ ?_ ?_
  · rintro t w ⟨⟨pid, rfl⟩, -⟩
    rfl
  · rintro rep fd' t w t' - hfd ⟨⟨pid, rfl⟩, hw⟩ hans
    refine ⟨⟨rfl, rfl, rfl⟩, rfl, .inl ⟨rfl, .inl ⟨rfl, fd', t', w, hfd, rfl, ⟨?_, ?_, ?_, ?_⟩, hw⟩⟩⟩
    · exact (Tenant.answers_hello rfl rfl hans).1
    · exact (Tenant.answers_hello rfl rfl hans).2.1
    · exact (Tenant.answers_hello rfl rfl hans).2.2
    · obtain ⟨g, hg, -, rfl⟩ := hans
      have hord : ({ pid } : Tenant).Orderly { type := .hello, name := b.name.take (nameLen - 1) } := rfl
      exact hord.sound (Tenant.sound_default _ _ rfl rfl rfl fun l => by cases l <;> rfl) hg
  · rintro b' v' ⟨hb, rfl, hun⟩
    exact ⟨⟨hb.chunks, hb.device, hb.host⟩, rfl, .inr ⟨⟨.etimedout, rfl⟩, hun⟩⟩

/-- Connecting ends the same way. -/
theorem connectBroker_view {b : VmemBackend} {v : View} (hun : Unlinked b v) :
    Code.wp (view ov) connectBroker (fun e b' v' => b.SameMemory b' ∧ v'.gpu = v.gpu ∧
      ((e = none ∧ Linked (Listed ov ∅ v.gpu) b' v') ∨ ((∃ x, e = some x) ∧ Unlinked b' v'))) b v := by
  refine Code.wp_bind.2 (Code.wp_get.2 ?_)
  split
  · exact ⟨.refl b, rfl, .inr ⟨⟨_, rfl⟩, hun⟩⟩
  · refine Code.wp_bind.2 (ask_view ⟨hun.room 0, hun.2.2⟩ fun s v' hv => ?_)
    cases s with
    | error e =>
      obtain rfl : v' = v := hv
      exact ⟨.refl b, rfl, .inr ⟨⟨e, rfl⟩, hun⟩⟩
    | ok fd =>
      obtain rfl : v' = { v with sock := some (fd, .unconnected) } := hv
      have hroom : View.Room { v with sock := some (fd, .unconnected) } 0 := by
        intro fd' p hp
        cases hp
        trivial
      -- a failed step closes the socket again
      have hfail : ∀ e : Errno, Code.wp (view ov) (do ask (.close fd); pure (some e)) (fun e b' v' => b.SameMemory b' ∧
          v'.gpu = v.gpu ∧ ((e = none ∧ Linked (Listed ov ∅ v.gpu) b' v') ∨ ((∃ x, e = some x) ∧ Unlinked b' v'))) b
          { v with sock := some (fd, .unconnected) } := by
        intro e
        refine Code.wp_bind.2 (ask_view ⟨hroom, _, rfl⟩ fun _ v' hv => ?_)
        obtain rfl : v' = { v with sock := none } := hv
        exact ⟨.refl b, rfl, .inr ⟨⟨e, rfl⟩, hun.1, hun.2.1, rfl⟩⟩
      refine Code.wp_bind.2 (ask_view ⟨hroom, rfl⟩ fun r v' hv => ?_)
      obtain rfl : v' = { v with sock := some (fd, .unconnected) } := hv
      cases r with
      | some e => exact hfail e
      | none =>
        refine Code.wp_bind.2 (ask_view ⟨hroom, rfl⟩ fun r v' hv => ?_)
        cases r with
        | some e =>
          obtain rfl : v' = { v with sock := some (fd, .unconnected) } := hv
          exact hfail e
        | none =>
          obtain ⟨pid, rfl⟩ := hv
          refine greet_view (v := { v with sock := _ }) rfl ⟨⟨pid, rfl⟩, fun hw => ?_⟩
          exact Std.ExtTreeMap.isEmpty_iff.1 hw

/-! ## Resync -/

/-- The table that the broker should hold for a backend's chunks. -/
def entries (m : OrdMap Ptr Rec) : OrdMap Ptr ChunkRec := m.map fun _ r => r.entry

/-- The entry of a chunk for the broker is made from its record. -/
@[simp] theorem entries_getElem? (m : OrdMap Ptr Rec) (va : Ptr) : (entries m)[va]? = m[va]?.map Rec.entry := by
  simp [entries, Std.ExtTreeMap.getElem?_map]

/-- A new record makes a new entry. -/
theorem entries_insert (m : OrdMap Ptr Rec) (va : Ptr) (r : Rec) :
    entries (m.insert va r) = (entries m).insert va r.entry := by
  apply Std.ExtTreeMap.ext_getElem?
  intro k
  by_cases hk : va = k <;> simp [Std.ExtTreeMap.getElem?_insert, hk]

/-- Forgetting a record forgets its entry. -/
theorem entries_erase (m : OrdMap Ptr Rec) (va : Ptr) : entries (m.erase va) = (entries m).erase va := by
  apply Std.ExtTreeMap.ext_getElem?
  intro k
  by_cases hk : va = k <;> simp [Std.ExtTreeMap.getElem?_erase, hk]

/-- Writing all entries of a backend's chunks, in order, gives the table. -/
theorem foldl_entries (m : OrdMap Ptr Rec) :
    m.toList.foldl (fun M p => M.insert p.1 p.2.entry) ∅ = entries m := by
  have hlist : (entries m).toList = m.toList.map fun p => (p.1, p.2.entry) := by
    simp [entries, Std.ExtTreeMap.toList_map]
  have h := OrdMap.foldl_insert_of_perm (List.Perm.refl (entries m).toList)
  rw [hlist, List.foldl_map] at h
  exact h

/-- The `Resync`s add the chunks one by one to what the broker records. -/
theorem resyncAll_view {g : Gpu} (cs : List (Ptr × Rec)) (hcs : (cs.map Prod.fst).Nodup) :
    ∀ (M : OrdMap Ptr ChunkRec) (b : VmemBackend) (v : View), (∀ p ∈ cs, M[p.1]? = none) → v.gpu = g →
      Linked (Listed ov M g) b v →
      Code.wp (view ov) (resyncAll cs) (fun _ b' v' => b.SameMemory b' ∧ v'.gpu = g ∧
        Linked (Listed ov (cs.foldl (fun M p => M.insert p.1 p.2.entry) M) g) b' v') b v := by
  induction cs with
  | nil => exact fun M b v _ hg hl => ⟨.refl b, hg, hl⟩
  | cons p cs ih =>
    intro M b v hM hg hl
    rw [List.map_cons, List.nodup_cons] at hcs
    have hn : M[p.1]? = none := hM p List.mem_cons_self
    refine Code.wp_seq (report_view (R := Listed ov (M.insert p.1 p.2.entry) g) rfl hl
      (room_of_empty hl fun t w h => hg ▸ h.2) ?_ ?_) ?_
    · rintro t w ⟨ht, -⟩
      show t.chunks[p.1]? = none
      rw [ht.chunks, hn]
    · rintro t w ⟨ht, hw⟩
      have hn' : t.chunks[p.1]? = none := by rw [ht.chunks, hn]
      obtain ⟨hk, hmv, hh⟩ := @Tenant.applied_resync ov t
        { type := .resync, loc := p.2.loc.field, ptr := p.1, size := p.2.size } rfl hn'
      refine ⟨⟨hh.trans ht.hello, hk.trans ?_, hmv.trans ht.moving, ?_⟩, fun hw' => hw (Bool.and_eq_true_iff.1 hw').1⟩
      · rw [ht.chunks]
        rfl
      · exact Tenant.Orderly.sound (m := { type := .resync, loc := p.2.loc.field, ptr := p.1, size := p.2.size }) hn' ht.sound rfl
    · rintro _ b' v' ⟨hb, hg', hl'⟩
      refine Code.wp_mono (ih hcs.2 _ b' v' (fun q hq => ?_) (hg'.trans hg) hl') ?_
      · have hne : p.1 ≠ q.1 := fun he => hcs.1 (List.mem_map.2 ⟨q, hq, he.symm⟩)
        simp [Std.ExtTreeMap.getElem?_insert, hne, hM q (List.mem_cons_of_mem _ hq)]
      · rintro _ b'' v'' ⟨hb', hg'', hl''⟩
        exact ⟨hb.trans hb', hg'', hl''⟩

/-- The broker's record has the backend's chunks and no move in flight. -/
def Agree (ov : Size) (b : VmemBackend) (t : Tenant) (_ : Bool) : Prop := t.Is ov (entries b.chunks) none

/-- After a reconnect the broker records what the client does, or there is no link. -/
theorem reconnect_view {b : VmemBackend} {v : View} (hl : Linked (Agree ov b) b v) (hr : v.Room 0) :
    Code.wp (view ov) reconnect (fun _ b' v' => b.SameMemory b' ∧ v'.gpu = v.gpu ∧ Linked (Agree ov b) b' v') b v := by
  refine Code.wp_bind.2 (Code.wp_get.2 ?_)
  split
  · exact ⟨⟨rfl, rfl, rfl⟩, rfl, hl.of_same ⟨rfl, rfl⟩ rfl⟩
  · have hfd : (b.fd = none ∧ v.sock = none) ∨ ∃ fd p, b.fd = some fd ∧ v.sock = some (fd, p) := by
      rcases hl with ⟨-, fd, t, w, hfd, hs, -⟩ | ⟨-, hfd, hs⟩
      · exact .inr ⟨fd, _, hfd, hs⟩
      · exact .inl ⟨hfd, hs⟩
    refine Code.wp_bind.2 (disconnectBroker_view hr hfd ?_)
    refine Code.wp_seq (connectBroker_view ⟨nofun, rfl, rfl⟩) ?_
    rintro e b₁ v₁ ⟨hb₁, hg₁, ⟨rfl, hl₁⟩ | ⟨⟨x, rfl⟩, hun⟩⟩
    · have hsame : b.SameMemory b₁ := ⟨hb₁.chunks, hb₁.device, hb₁.host⟩
      refine Code.wp_seq (resyncAll_view b.chunks.toList (OrdMap.nodup_keys b.chunks) ∅ b₁ v₁ (by simp) hg₁ hl₁) ?_
      rintro _ b₂ v₂ ⟨hb₂, hg₂, hl₂⟩
      refine ⟨hsame.trans hb₂, hg₂, hl₂.mono fun t w h => ?_⟩
      rw [foldl_entries] at h
      exact h.1
    · exact ⟨⟨hb₁.chunks, hb₁.device, hb₁.host⟩, hg₁, .inr ⟨hun.1, hun.2.1, hun.2.2⟩⟩

/-- So after the attempt before a decision. -/
theorem maybeReconnect_view {b : VmemBackend} {v : View} (hl : Linked (Agree ov b) b v) (hr : v.Room 0) :
    Code.wp (view ov) maybeReconnect (fun _ b' v' => b.SameMemory b' ∧ v'.gpu = v.gpu ∧ Linked (Agree ov b) b' v') b v := by
  refine Code.wp_bind.2 (Code.wp_get.2 ?_)
  split
  · exact Code.wp_seq (reconnect_view hl hr) fun _ b' v' h => h
  · exact ⟨.refl b, rfl, hl⟩

/-- The broker counted a new chunk at `loc`, if `counted` says so. -/
def Counted (ov : Size) (b : VmemBackend) (va : Ptr) (size : Size) (loc : Loc) (counted : Bool) (t : Tenant) (_ : Bool) : Prop :=
  counted = true ∧ t.Is ov ((entries b.chunks).insert va ⟨size, loc.field⟩) none

/-- The answer of the broker is a refusal, or it has counted the chunk at the place it names. -/
theorem decidePlace_view {va : Ptr} {size : Size} {b b₀ : VmemBackend} {v : View} (hl : Linked (Agree ov b₀) b v)
    (hr : v.Room 0) (hva : b₀.chunks[va]? = none) :
    Code.wp (view ov) (decidePlace va size) (fun d b' v' => b.SameMemory b' ∧ v'.gpu = v.gpu ∧
      ((d.1 ≠ .ok ∧ Linked (Agree ov b₀) b' v') ∨ (d.1 = .ok ∧ Linked (Counted ov b₀ va size d.2.1 d.2.2) b' v'))) b v := by
  have hn : ∀ t w, Agree ov b₀ t w → t.chunks[va]? = none := by
    intro t w ht
    simp [ht.chunks, hva]
  refine Code.wp_bind.2 (Code.wp_get.2 ?_)
  split
  · rename_i hlink
    rcases hl with ⟨hl, -⟩ | hun
    · exact absurd hl hlink
    · exact ⟨.refl b, rfl, .inr ⟨rfl, .inr hun⟩⟩
  · refine Code.wp_bind.2 (request_view rfl hl hr hn ?_ ?_)
    · intro rep fd t w t' hlink hfd ht hans
      obtain ⟨hok, hno⟩ := Tenant.answers_alloc rfl (hn t w ht) hans
      have hsound : t'.Sound ov := by
        obtain ⟨g, hg, -, rfl⟩ := hans
        exact Tenant.Orderly.sound (m := { type := .alloc, ptr := va, size := size }) (hn t w ht) ht.sound hg
      dsimp only
      split
      · rename_i hs
        obtain rfl := hno hs
        exact ⟨⟨rfl, rfl, rfl⟩, rfl, .inl ⟨nofun, .inl ⟨hlink, fd, t', w, hfd, rfl, ht⟩⟩⟩
      · rename_i hs
        obtain ⟨hk, hmv, hh⟩ := hok (by simpa using hs)
        refine ⟨.refl b, rfl, .inr ⟨rfl, .inl ⟨hlink, fd, t', w, hfd, rfl, rfl, hh.trans ht.hello, ?_, hmv.trans ht.moving,
          hsound⟩⟩⟩
        rw [hk, ht.chunks]
    · rintro b' v' ⟨hb, rfl, hun⟩
      exact ⟨hb, rfl, .inr ⟨rfl, hun.linked⟩⟩

end ViewAux

end Vmem
