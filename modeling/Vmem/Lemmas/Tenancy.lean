import Vmem.Tenancy
import Vmem.Lemmas.LinkFrame
import Vmem.Lemmas.AllocatorCalls
import Vmem.Lemmas.BrokerRuns

/-!
# Connections and their backends

Every function of a backend leaves its allocator with one connection if the link is `Connected` and with none otherwise, and leaves the
sockets of the other allocators alone.
-/

namespace Vmem

/-- The backend of allocator `i` between two steps of its link: it holds the one descriptor of the allocator, which is connected, and
`link` is `Connected` exactly if it holds one. -/
structure Linked (i : Nat) (b : VmemBackend) (m : OrdMap Fd Sock) : Prop where
  own : ∀ (fd : Fd) (k : Sock), m[fd]? = some k → k.owner = i → b.fd = some fd
  held : ∀ fd : Fd, b.fd = some fd → ∃ n : ConnId, m[fd]? = some { owner := i, conn := some n }
  link : b.link = .connected ↔ b.fd.isSome = true

/-- The descriptors of the other allocators are as they were. -/
def Elsewhere (i : Nat) (m₀ m : OrdMap Fd Sock) : Prop :=
  ∀ (fd : Fd) (k : Sock), k.owner ≠ i → (m[fd]? = some k ↔ m₀[fd]? = some k)

/-- What a call of the backend of allocator `i` keeps. -/
def Tied (i : Nat) (m₀ : OrdMap Fd Sock) (b : VmemBackend) (s : Net) : Prop := Linked i b s.socks ∧ Elsewhere i m₀ s.socks

section

variable {i : Nat} {m₀ m : OrdMap Fd Sock} {b b' : VmemBackend} {fd : Fd}

/-- The tie of a process to its descriptor depends on the descriptor and the link. -/
theorem Linked.object (h : Linked i b m) (hfd : b'.fd = b.fd) (hlink : b'.link = b.link) : Linked i b' m where
  own fd k hk ho := hfd.trans (h.own fd k hk ho)
  held fd hb := h.held fd (hfd.symm.trans hb)
  link := by rw [hfd, hlink, h.link]

/-- The descriptor of an allocator is its own. -/
theorem Linked.owner (h : Linked i b m) (hb : b.fd = some fd) {k : Sock} (hk : m[fd]? = some k) : k.owner = i := by
  obtain ⟨n, hn⟩ := h.held fd hb
  cases hn.symm.trans hk
  rfl

/-- A new socket of the process changes nothing for the others. -/
theorem Elsewhere.insert (h : Elsewhere i m₀ m) (hfd : ∀ k : Sock, m[fd]? = some k → k.owner = i) {k : Sock} (hk : k.owner = i) :
    Elsewhere i m₀ (m.insert fd k) := by
  intro fd' k' hk'
  rw [OrdMap.getElem?_insert, ← h fd' k' hk']
  split
  · next he =>
    subst he
    constructor
    · intro heq
      cases heq
      exact absurd hk hk'
    · intro hget
      exact absurd (hfd k' hget) hk'
  · exact Iff.rfl

/-- Neither does closing one of its own. -/
theorem Elsewhere.erase (h : Elsewhere i m₀ m) (hfd : ∀ k : Sock, m[fd]? = some k → k.owner = i) : Elsewhere i m₀ (m.erase fd) := by
  intro fd' k' hk'
  rw [OrdMap.getElem?_erase, ← h fd' k' hk']
  split
  · next he =>
    subst he
    constructor
    · exact nofun
    · intro hget
      exact absurd (hfd k' hget) hk'
  · exact Iff.rfl

end

namespace TenancyAux

open VmemBackend Code

variable {out : Outside} {i : Nat} {m₀ m : OrdMap Fd Sock} {b : VmemBackend} {s t : Net}

/-! ## Sockets -/

/-- The broker opens and closes no descriptor of the process. -/
theorem socks_later (h : Net.Later out s t) : t.socks = s.socks := by
  induction h with
  | refl => rfl
  | tail _ hstep ih => cases hstep <;> exact ih

/-- A backend without a descriptor holds no socket. -/
theorem not_owned (h : Linked i b m) (hb : b.fd = none) (fd : Fd) (k : Sock) (hk : m[fd]? = some k) : k.owner ≠ i := by
  intro ho
  have hfd := h.own fd k hk ho
  rw [hb] at hfd
  exact nomatch hfd

/-- An allocator without a socket has a backend without a descriptor. -/
theorem linked_none (h : ∀ (fd : Fd) (k : Sock), m[fd]? = some k → k.owner ≠ i) (hb : b.fd = none) (hl : b.link ≠ .connected) :
    Linked i b m where
  own fd k hk ho := absurd ho (h fd k hk)
  held fd hfd := by
    rw [hb] at hfd
    exact nomatch hfd
  link := by simp [hb, hl]

/-! ## The link -/

/-- The connection is closed, if there is one. -/
theorem disconnectBroker_wp {next : Link} (hnext : next ≠ .connected) {Q : Unit → VmemBackend → Net → Prop} (h : Tied i m₀ b s)
    (hQ : ∀ s', Tied i m₀ { b with fd := none, link := next } s' → Q () { b with fd := none, link := next } s') :
    Code.wp (Net.world out i) (disconnectBroker next) Q b s := by
  obtain ⟨hl, he⟩ := h
  unfold disconnectBroker closeFd
  rw [Code.wp_bind, Code.wp_bind, Code.wp_get]
  cases hfd : b.fd with
  | none => exact hQ s ⟨linked_none (not_owned hl hfd) rfl hnext, he⟩
  | some fd =>
    obtain ⟨n, hn⟩ := hl.held fd hfd
    refine ⟨⟨_, hn, rfl⟩, ?_⟩
    rintro r s' ⟨t, ht, rfl⟩
    have hsocks : t.socks = s.socks := socks_later ht
    have hmine : ∀ k : Sock, s.socks[fd]? = some k → k.owner = i := fun k hk => hl.owner hfd hk
    refine hQ _ ⟨linked_none ?_ rfl hnext, ?_⟩
    · intro fd' k hk ho
      simp only [hsocks, OrdMap.getElem?_erase] at hk
      split at hk
      · exact nomatch hk
      · next hne =>
        have hfd' := hl.own fd' k hk ho
        rw [hfd] at hfd'
        exact hne (Option.some.inj hfd').symm
    · simp only [hsocks]
      exact he.erase hmine

/-- A failed send or receive breaks the link. -/
theorem break_wp (e : ErrText) {α : Type} (a : α) (h : Tied i m₀ b s) :
    Code.wp (Net.world out i) (do
      modify fun b => { b with err := e }
      disconnectBroker .broken
      pure a)
      (fun a' b' s' => a' = a ∧ Tied i m₀ b' s' ∧ b'.fd = none) b s := by
  rw [Code.wp_bind, Code.wp_modify, Code.wp_bind]
  refine disconnectBroker_wp (by decide) ⟨h.1.object rfl rfl, h.2⟩ ?_
  intro s' h'
  exact ⟨rfl, h', rfl⟩

/-- A message goes over the connection of the allocator; without one, or when that fails, there is none. -/
theorem sendMsg_wp (m : Msg) (h : Tied i m₀ b s) :
    Code.wp (Net.world out i) (sendMsg m) (fun sent b' s' => Tied i m₀ b' s' ∧ (sent = false ↔ b'.fd = none)) b s := by
  unfold sendMsg
  rw [Code.wp_bind, Code.wp_get]
  by_cases hlink : b.link = .connected
  · rw [if_neg (by simpa using hlink), Code.wp_bind, ask, Code.wp_call]
    obtain ⟨fd, hfd⟩ := Option.isSome_iff_exists.1 (h.1.link.1 hlink)
    obtain ⟨n, hn⟩ := h.1.held fd hfd
    refine ⟨⟨fd, n, hfd, hn⟩, ?_⟩
    rintro r s' ⟨t, ht, hr⟩
    have hs' : s' = t := hr
    have ht' : Tied i m₀ b t := by
      rw [Tied, socks_later ht]
      exact h
    subst hs'
    cases r with
    | none => exact ⟨ht', by simp [hfd]⟩
    | some e =>
      refine Code.wp_mono (break_wp (.send e) false ht') ?_
      rintro sent b' s'' ⟨rfl, h', hnone⟩
      exact ⟨h', by simp [hnone]⟩
  · rw [if_pos (by simpa using hlink)]
    refine ⟨h, ?_⟩
    have hnone : ¬b.fd.isSome = true := fun hs => hlink (h.1.link.2 hs)
    simpa using hnone

/-- Sending keeps the process tied to its one descriptor, or closes it. -/
theorem keepsTied_sendMsg (m : Msg) : Keeps (Net.world out i) (Tied i m₀) (sendMsg m) := by
  intro b s h
  exact Code.wp_mono (sendMsg_wp m h) fun _ _ _ h => h.1

/-- Without a reply there is no connection. -/
theorem sendAndRecv_wp (m : Msg) (h : Tied i m₀ b s) :
    Code.wp (Net.world out i) (sendAndRecv m) (fun rep b' s' => Tied i m₀ b' s' ∧ (rep = none → b'.fd = none)) b s := by
  unfold sendAndRecv
  refine Code.wp_seq (sendMsg_wp m h) ?_
  rintro sent b₁ s₁ ⟨h₁, hsent⟩
  cases sent with
  | false => exact ⟨h₁, fun _ => hsent.1 rfl⟩
  | true =>
    simp only [Bool.not_true, Bool.false_eq_true, if_false]
    rw [Code.wp_bind, Code.wp_get, Code.wp_bind, ask, Code.wp_call]
    obtain ⟨fd, hfd⟩ := Option.ne_none_iff_exists'.1 (fun hnone => nomatch hsent.2 hnone)
    obtain ⟨n, hn⟩ := h₁.1.held fd hfd
    refine ⟨⟨fd, n, hfd, hn⟩, ?_⟩
    rintro r s' ⟨t, ht, hr⟩
    have hs' : s' = t := hr
    have ht' : Tied i m₀ b₁ t := by
      rw [Tied, socks_later ht]
      exact h₁
    subst hs'
    have hbreak (e : ErrText) : Code.wp (Net.world out i) (do
        modify fun b => { b with err := e }
        disconnectBroker .broken
        pure none) (fun rep b' s' => Tied i m₀ b' s' ∧ (rep = (none : Option Reply) → b'.fd = none)) b₁ s' := by
      refine Code.wp_mono (break_wp e none ht') ?_
      intro rep b' s'' h'
      exact ⟨h'.2.1, fun _ => h'.2.2⟩
    cases r with
    | reply rep => exact ⟨ht', nofun⟩
    | error e => exact hbreak (.recv e)
    | short n => exact hbreak .recvClosed

/-- A backend without a connection makes one, or ends without one. -/
theorem connectBroker_wp (h : Tied i m₀ b s) (hb : b.fd = none) :
    Code.wp (Net.world out i) connectBroker (fun e b' s' => Tied i m₀ b' s' ∧ (e ≠ none → b'.fd = none)) b s := by
  obtain ⟨hl, he⟩ := h
  have hfree := not_owned hl hb
  unfold connectBroker
  rw [Code.wp_bind, Code.wp_get]
  split
  · exact ⟨⟨hl, he⟩, fun _ => hb⟩
  · rw [Code.wp_bind, ask, Code.wp_call]
    refine ⟨hfree, ?_⟩
    rintro r s₁ ⟨t, ht, hr⟩
    have hsocks := socks_later ht
    cases r with
    | error e =>
      have hs₁ : s₁ = t := hr
      subst hs₁
      refine ⟨?_, fun _ => hb⟩
      rw [Tied, hsocks]
      exact ⟨hl, he⟩
    | ok fd =>
      obtain ⟨hnew, rfl⟩ := hr
      have hnew' : s.socks[fd]? = none := hsocks ▸ hnew
      have hmine : ∀ k : Sock, s.socks[fd]? = some k → k.owner = i := by
        intro k hk
        rw [hnew'] at hk
        exact nomatch hk
      -- the new descriptor is only to be closed
      have hclosed (e : Errno) {u : Net} (hu : u.socks = s.socks.insert fd { owner := i }) : Code.wp (Net.world out i) (do
          ask (.close fd)
          pure (some e)) (fun e b' s' => Tied i m₀ b' s' ∧ (e ≠ none → b'.fd = none)) b u := by
        rw [Code.wp_bind, ask, Code.wp_call]
        refine ⟨⟨{ owner := i }, ?_, rfl⟩, ?_⟩
        · rw [hu, OrdMap.getElem?_insert, if_pos rfl]
        · rintro r s' ⟨t', ht', rfl⟩
          rw [Code.wp_pure, Tied]
          simp only [socks_later ht', hu, OrdMap.erase_insert _ hnew']
          exact ⟨⟨hl, he⟩, fun _ => hb⟩
      have hu : ({ t with socks := t.socks.insert fd { owner := i } } : Net).socks = s.socks.insert fd { owner := i } := by rw [hsocks]
      generalize ({ t with socks := t.socks.insert fd { owner := i } } : Net) = u at hu
      dsimp only
      rw [Code.wp_bind, ask, Code.wp_call]
      refine ⟨trivial, ?_⟩
      rintro r s₂ ⟨t₂, ht₂, hr₂⟩
      have hs₂ : s₂ = t₂ := hr₂
      subst hs₂
      have hu₂ := (socks_later ht₂).trans hu
      cases r with
      | some e => exact hclosed e hu₂
      | none =>
        dsimp only
        rw [Code.wp_bind, ask, Code.wp_call]
        refine ⟨?_, ?_⟩
        · show s₂.socks[fd]? = _
          rw [hu₂, OrdMap.getElem?_insert, if_pos rfl]
        · rintro r s₃ ⟨t₃, ht₃, hr₃⟩
          have hu₃ := (socks_later ht₃).trans hu₂
          cases r with
          | some e =>
            have hs₃ : s₃ = t₃ := hr₃
            subst hs₃
            exact hclosed e hu₃
          | none =>
            obtain ⟨n, -, -, rfl⟩ := hr₃
            show Code.wp (Net.world out i) (greet fd) _ b _
            unfold greet
            rw [Code.wp_bind, Code.wp_modify, Code.wp_bind, Code.wp_get]
            have htied : Tied i m₀ { b with fd := some fd, link := .connected }
                { t₃ with socks := t₃.socks.insert fd { owner := i, conn := some n }, made := t₃.made.insert n true } := by
              simp only [Tied, hu₃, OrdMap.insert_insert]
              refine ⟨⟨?_, ?_, by simp⟩, he.insert hmine rfl⟩
              · intro fd' k hk ho
                rw [OrdMap.getElem?_insert] at hk
                split at hk
                · next heq => rw [heq]
                · exact absurd ho (hfree fd' k hk)
              · intro fd' hfd'
                cases hfd'
                exact ⟨n, by rw [OrdMap.getElem?_insert, if_pos rfl]⟩
            refine Code.wp_seq (sendAndRecv_wp _ htied) ?_
            rintro rep b' s' ⟨h', hrep⟩
            refine ⟨h', ?_⟩
            cases rep with
            | none => exact fun _ => hrep rfl
            | some rep => exact fun hne => absurd rfl hne

theorem keepsTied_resyncAll (cs : List (Ptr × Rec)) : Keeps (Net.world out i) (Tied i m₀) (resyncAll cs) := by
  induction cs with
  | nil => exact keeps_pure _
  | cons p cs ih => exact keeps_bind (keepsTied_sendMsg _) fun _ => ih

/-- A reconnect closes the old descriptor before it opens a new one. -/
theorem keepsTied_reconnect : Keeps (Net.world out i) (Tied i m₀) reconnect := by
  refine keeps_bind keeps_get fun b₀ => keeps_ite ?_ ?_
  · exact keeps_bind (keeps_modify fun b s h => ⟨h.1.object rfl rfl, h.2⟩) fun _ => keeps_pure _
  · intro b s h
    rw [Code.wp_bind]
    refine disconnectBroker_wp (by decide) h ?_
    intro s₁ h₁
    refine Code.wp_seq (connectBroker_wp h₁ rfl) ?_
    rintro e b₂ s₂ ⟨h₂, -⟩
    cases e with
    | some e => exact ⟨h₂.1.object rfl rfl, h₂.2⟩
    | none =>
      refine Code.wp_seq (keepsTied_resyncAll _ b₂ s₂ h₂) ?_
      intro _ b₃ s₃ h₃
      exact h₃

/-- What is not of the socket changes nothing that an allocator's connection depends on. -/
theorem linkFrame : LinkFrame (Net.world out i) (Tied i m₀) where
  object h hk := ⟨h.1.object hk.fd hk.link, h.2⟩
  other {o} ho := by
    refine keeps_call fun b s h => ⟨?_, ?_⟩
    · cases o
      all_goals trivial
    · rintro r s' ⟨t, ht, hr⟩
      have hs' : s' = t := by
        cases o
        all_goals first
          | exact hr
          | exact nomatch ho
      rw [hs', Tied, socks_later ht]
      exact h
  send := keepsTied_sendMsg
  exchange m := by
    intro b s h
    exact Code.wp_mono (sendAndRecv_wp m h) fun _ _ _ h => h.1
  reconnect := keepsTied_reconnect

/-- After `close` there is no descriptor. -/
theorem closeBackend_wp (h : Tied i m₀ b s) :
    Code.wp (Net.world out i) closeBackend (fun _ b' s' => Tied i m₀ b' s' ∧ b'.fd = none) b s :=
  disconnectBroker_wp (by decide) h fun _ h' => ⟨h', rfl⟩

/-- So `close` keeps the process tied. -/
theorem keepsTied_closeBackend : Keeps (Net.world out i) (Tied i m₀) closeBackend := by
  intro b s h
  exact Code.wp_mono (closeBackend_wp h) fun _ _ _ h => h.1

/-- An opened backend is in order; one that could not be opened has no connection. -/
theorem openBackend_wp (c : BackendConfig) (invocation : List UInt8) (h : Tied i m₀ b s) (hb : b.fd = none) :
    Code.wp (Net.world out i) (openBackend c invocation) (fun st b' s' => Tied i m₀ b' s' ∧ (st ≠ .ok → b'.fd = none)) b s := by
  have hframe : ObjectFrame (Net.world out i) (fun b s => Tied i m₀ b s ∧ b.fd = none) := by
    refine ⟨fun h hk => ⟨⟨h.1.1.object hk.fd hk.link, h.1.2⟩, hk.fd.trans h.2⟩, fun ho b s h => ?_⟩
    refine ⟨(linkFrame.other ho b s h.1).1, fun r s' hr => ⟨(linkFrame.other ho b s h.1).2 r s' hr, h.2⟩⟩
  refine hframe.openBackend_wp (fun _ h => ⟨⟨h.1.1.object rfl rfl, h.1.2⟩, h.2⟩) (fun st b s _ h => ⟨h.1, fun _ => h.2⟩) ?_ ⟨h, hb⟩
  intro b s ⟨h, hb⟩
  unfold openDaemon
  split
  · exact ⟨h, fun hne => absurd rfl hne⟩
  · rw [Code.wp_bind, Code.wp_modify]
    refine Code.wp_seq (connectBroker_wp ⟨h.1.object rfl rfl, h.2⟩ hb) ?_
    rintro e b₁ s₁ ⟨h₁, hfail⟩
    cases e with
    | none => exact ⟨h₁, fun hne => absurd rfl hne⟩
    | some e =>
      dsimp only
      split
      · exact ⟨h₁, fun hne => absurd rfl hne⟩
      · exact ⟨⟨h₁.1.object rfl rfl, h₁.2⟩, fun _ => hfail nofun⟩

/-! ## Behind the interface -/

/-- The backend of an allocator that has none with a broker holds nothing. -/
def Bound (i : Nat) (m₀ : OrdMap Fd Sock) (b : Option VmemBackend) (s : Net) : Prop := Tied i m₀ (b.getD {}) s

/-- What a function of the backend does, it does behind the interface. -/
theorem served_wp {α : Type} {x : BackendM α} {Q : α → VmemBackend → Net → Prop} (h : Code.wp (Net.world out i) x Q b s) :
    (served x b).wp (Net.world out i) (fun r s' => ∃ b', r.2 = some b' ∧ Q r.1 b' s') s := by
  unfold served
  rw [Prog.wp_bind]
  exact Prog.wp_mono (fun r _ hr => ⟨r.2, rfl, hr⟩) h

/-- What it keeps, it keeps behind the interface. -/
theorem served_keeps {α : Type} {x : BackendM α} (hx : Keeps (Net.world out i) (Tied i m₀) x) (h : Tied i m₀ b s) :
    (served x b).wp (Net.world out i) (fun r s' => Bound i m₀ r.2 s') s := by
  refine Prog.wp_mono ?_ (served_wp (hx b s h))
  rintro ⟨a, ob⟩ s' ⟨b', rfl, h'⟩
  exact h'

/-- Every call of an allocator that is built keeps its backend in order. -/
theorem serve_keeps (invocation : List UInt8) {ob : Option VmemBackend} {c : BackendCall} {p : Prog Op Op.Answer (c.Answer × Option VmemBackend)}
    (hc : c.opens = false) (h : Bound i m₀ ob s) (hp : serve invocation ob c = some p) :
    p.wp (Net.world out i) (fun r s' => Bound i m₀ r.2 s') s := by
  cases ob with
  | none =>
    cases c with
    | make k | openWith c => exact nomatch hc
    | link | reconnect =>
      cases hp
      exact h
    | _ => exact nomatch hp
  | some b =>
    cases c with
    | make k | openWith c => exact nomatch hc
    | close =>
      cases hp
      exact served_keeps keepsTied_closeBackend h
    | create size =>
      cases hp
      exact served_keeps (linkFrame.create _ _) h
    | destroy c =>
      cases hp
      exact served_keeps (linkFrame.destroy _) h
    | move c target =>
      cases hp
      exact served_keeps (linkFrame.move _ _) h
    | reconnect =>
      cases hp
      exact served_keeps keepsTied_reconnect h
    | granularity | canMove | link | used | usedAt l =>
      cases hp
      exact h
    | synchronize | pastEnd slot | backOfEmpty | bitCeilOverflow x | atFailed => exact nomatch hp

/-! ## Allocators -/

open Allocator in
/-- The sizes are checked last: an allocator that fails there does not fit. -/
theorem sizes_wp (invocation : List UInt8) (c : Config) {ob : Option VmemBackend} {a : Allocator} (h : Bound i m₀ ob s) :
    Throwing.wp (tenancy out invocation i) (do
        let chunk ← roundUp c.smallChunk
        modify fun a => { a with cfg := { a.cfg with smallChunk := chunk } }
        let max ← bitCeil c.smallMax
        if max > chunk then throw ⟨.unsupported, .config⟩ else pure ())
      (fun _ _ y => Bound i m₀ y.1 y.2 ∧ ∀ b, y.1 = some b → c.smallMax.toNat ≤ 2 ^ 63 → c.SizesFit b.gran)
      (fun _ _ y => Bound i m₀ y.1 y.2 ∧ ∀ b, y.1 = some b → ¬c.SizesFit b.gran) a (ob, s) := by
  have hcheck (g : Size) (hg : ∀ b, ob = some b → g = b.gran) {a : Allocator} : Throwing.wp (tenancy out invocation i) (do
        let max ← bitCeil c.smallMax
        if max > (c.smallChunk + g - 1) / g * g then throw ⟨.unsupported, .config⟩ else pure ())
      (fun _ _ y => Bound i m₀ y.1 y.2 ∧ ∀ b, y.1 = some b → c.smallMax.toNat ≤ 2 ^ 63 → c.SizesFit b.gran)
      (fun _ _ y => Bound i m₀ y.1 y.2 ∧ ∀ b, y.1 = some b → ¬c.SizesFit b.gran) a (ob, s) := by
    rw [Throwing.wp_bind, bitCeil, Throwing.wp_ite]
    constructor
    · intro hle
      rw [Throwing.wp_pure, Throwing.wp_ite]
      refine ⟨fun hgt => ⟨h, fun b hb hfit => ?_⟩, fun hngt => ⟨h, fun b hb _ => ?_⟩⟩
      · rw [hg b hb] at hgt
        exact absurd hfit.2 (BitVec.not_le.2 hgt)
      · rw [hg b hb] at hngt
        exact ⟨hle, BitVec.not_lt.1 hngt⟩
    · intro hgt
      rw [Allocator.ask, Throwing.wp_call]
      refine Prog.over_unserved ?_ fun max => ?_
      · cases ob <;> rfl
      · rw [Throwing.wp_ite]
        exact ⟨fun _ => ⟨h, fun b _ hfit => hgt hfit.1⟩, fun _ => ⟨h, fun b _ hle => absurd hle hgt⟩⟩
  rw [Throwing.wp_bind, roundUp, Throwing.wp_bind, Allocator.ask, Throwing.wp_call]
  cases ob with
  | none => exact Prog.over_unserved rfl fun g => hcheck g fun b hb => by cases hb
  | some b =>
    refine Prog.over_served rfl ?_
    exact hcheck b.gran fun b' hb => by rw [Option.some.inj hb]

/-- A new allocator is in order, whether its constructor returns or throws; one that threw has no connection, or sizes that do not fit. -/
theorem construct_wp (invocation : List UInt8) (c : Config) (env : Env) (hfree : ∀ (fd : Fd) (k : Sock), s.socks[fd]? = some k → k.owner ≠ i) :
    Throwing.wp (tenancy out invocation i) (Allocator.construct c env)
      (fun _ _ y => Bound i s.socks y.1 y.2 ∧ ∀ b, y.1 = some b → c.smallMax.toNat ≤ 2 ^ 63 → c.SizesFit b.gran)
      (fun _ _ y => Bound i s.socks y.1 y.2 ∧ ((y.1.getD {}).fd = none ∨ ∀ b, y.1 = some b → ¬c.SizesFit b.gran)) {} (none, s) := by
  have hnew : Bound i s.socks none s := ⟨linked_none hfree rfl (by decide), fun _ _ _ => Iff.rfl⟩
  unfold Allocator.construct
  rw [Throwing.wp_bind, Throwing.wp_modify]
  cases Allocator.envKind env c.backend with
  | error e => exact ⟨hnew, .inl rfl⟩
  | ok k =>
    dsimp only
    rw [Throwing.wp_bind, Allocator.ask, Throwing.wp_call]
    refine Prog.over_served rfl ?_
    show Throwing.wp (tenancy out invocation i) _ _ _ _ (if k = .vmem then some {} else none, s)
    -- what `open` leaves behind
    have hopened (st : Status) {ob : Option VmemBackend} {s' : Net} {a : Allocator} (h : Bound i s.socks ob s')
        (hfail : st ≠ .ok → (ob.getD {}).fd = none) : Throwing.wp (tenancy out invocation i)
        (if st ≠ .ok then throw ⟨st, .opening⟩
        else do
          let chunk ← Allocator.roundUp c.smallChunk
          modify fun a => { a with cfg := { a.cfg with smallChunk := chunk } }
          let max ← Allocator.bitCeil c.smallMax
          if max > chunk then throw ⟨.unsupported, .config⟩ else pure ())
        (fun _ _ y => Bound i s.socks y.1 y.2 ∧ ∀ b, y.1 = some b → c.smallMax.toNat ≤ 2 ^ 63 → c.SizesFit b.gran)
        (fun _ _ y => Bound i s.socks y.1 y.2 ∧ ((y.1.getD {}).fd = none ∨ ∀ b, y.1 = some b → ¬c.SizesFit b.gran)) a (ob, s') := by
      rw [Throwing.wp_ite]
      refine ⟨fun hst => ⟨h, .inl (hfail hst)⟩, fun _ => ?_⟩
      exact Throwing.wp_mono (sizes_wp invocation c h) (fun _ _ _ h => h) fun _ _ _ h => ⟨h.1, .inr h.2⟩
    rw [Throwing.wp_bind, Allocator.ask, Throwing.wp_call]
    by_cases hk : k = .vmem
    · rw [if_pos hk]
      refine Prog.over_served rfl ?_
      refine Prog.wp_mono ?_ (served_wp (openBackend_wp _ invocation hnew rfl))
      rintro ⟨st, ob⟩ s' ⟨b, rfl, htied, hfail⟩
      exact hopened st htied hfail
    · rw [if_neg hk]
      exact Prog.over_unserved rfl fun st => hopened st hnew fun _ => rfl

/-- A destructor leaves no connection. -/
theorem destruct_wp (invocation : List UInt8) {ob : Option VmemBackend} {a : Allocator} (h : Bound i m₀ ob s) :
    Throwing.wp (tenancy out invocation i) Allocator.destruct (fun _ _ y => Bound i m₀ y.1 y.2 ∧ (y.1.getD {}).fd = none)
      (fun _ _ _ => False) a (ob, s) := by
  obtain ⟨x, hx, hcalls⟩ := AllocatorCallsAux.destruct_closes
  rw [hx, Throwing.wp_bind]
  refine Throwing.wp_mono (Throwing.wp_over (fun b s c p hc h hp => serve_keeps invocation hc h hp) (hcalls a) h) ?_ fun _ _ _ h => h.1
  rintro _ a' ⟨ob', s'⟩ ⟨-, h'⟩
  rw [Allocator.ask, Throwing.wp_call]
  cases ob' with
  | none => exact Prog.over_unserved rfl fun _ => ⟨h', rfl⟩
  | some b =>
    refine Prog.over_served rfl (Prog.wp_mono ?_ (served_wp (closeBackend_wp h')))
    rintro ⟨r, ob''⟩ s'' ⟨b', rfl, h''⟩
    exact h''

/-- A call of an app leaves its allocator in order. -/
theorem program_wp (invocation : List UInt8) (c : AppCall) {ob : Option VmemBackend} {a : Allocator} (h : Bound i m₀ ob s) :
    Throwing.wp (tenancy out invocation i) c.program (fun _ _ y => Bound i m₀ y.1 y.2) (fun _ _ y => Bound i m₀ y.1 y.2) a (ob, s) := by
  refine Throwing.wp_mono (Throwing.wp_over (fun b s c p hc h hp => serve_keeps invocation hc h hp)
    (AllocatorCallsAux.built_program c a) h) ?_ ?_
  all_goals exact fun _ _ _ h => h.2

end TenancyAux

/-! ## Processes -/

/-- Between its steps, a process has a connection or none for each live allocator, as its link says, and no others. -/
structure Process.Sound (x : Process) : Prop where
  linked : ∀ (i : Nat) (h : Holder), x.live[i]? = some h → Linked i (h.b.getD {}) x.net.socks
  owned : ∀ (fd : Fd) (k : Sock), x.net.socks[fd]? = some k → ∃ h : Holder, x.live[k.owner]? = some h
  older : ∀ (i : Nat) (h : Holder), x.live[i]? = some h → i < x.next

namespace TenancyAux

variable {out : Outside} {i : Nat} {m₀ m : OrdMap Fd Sock} {b : VmemBackend} {s t : Net} {invocation : List UInt8}
  {ok : Deed → Prop} {broker : Broker} {x x' : Process} {d : Deed}

/-- A process without allocators has no connection. -/
theorem sound_start : (Process.start broker).Sound where
  linked i h hi := by simp [Process.start] at hi
  owned fd k hk := by simp [Process.start] at hk
  older i h hi := by simp [Process.start] at hi

/-- The sockets of a live allocator depend on no other allocator. -/
theorem Linked.elsewhere {j : Nat} (h : Linked j b m₀) (he : Elsewhere i m₀ m) (hne : j ≠ i) : Linked j b m where
  own fd k hk ho := h.own fd k ((he fd k (by rwa [ho])).1 hk) ho
  held fd hfd := by
    obtain ⟨n, hn⟩ := h.held fd hfd
    exact ⟨n, (he fd _ hne).2 hn⟩
  link := h.link

/-- The number of the next allocator is not in use. -/
theorem free_next (hx : x.Sound) (fd : Fd) (k : Sock) (hk : x.net.socks[fd]? = some k) : k.owner ≠ x.next := by
  intro heq
  obtain ⟨h, hlive⟩ := hx.owned fd k hk
  have hlt := hx.older _ h hlive
  omega

/-- An allocator that goes on leaves the process in order. -/
theorem sound_insert (hx : x.Sound) {a : Allocator} {ob : Option VmemBackend} (hb : Bound i x.net.socks ob s) {next : Nat}
    (hnext : x.next ≤ next) (hi : i < next) : Process.Sound { net := s, live := x.live.insert i ⟨a, ob⟩, next } where
  linked j h hj := by
    rw [OrdMap.getElem?_insert] at hj
    split at hj
    · next heq =>
      cases hj
      exact heq ▸ hb.1
    · next hne => exact Linked.elsewhere (hx.linked j h hj) hb.2 hne
  owned fd k hk := by
    rw [OrdMap.getElem?_insert]
    by_cases ho : k.owner = i
    · exact ⟨_, if_pos ho⟩
    · obtain ⟨h, hlive⟩ := hx.owned fd k ((hb.2 fd k ho).1 hk)
      exact ⟨h, by rw [if_neg ho, hlive]⟩
  older j h hj := by
    rw [OrdMap.getElem?_insert] at hj
    split at hj
    · next heq => exact heq ▸ hi
    · exact Nat.lt_of_lt_of_le (hx.older j h hj) hnext

/-- An allocator that goes without a connection leaves the process in order. -/
theorem sound_gone (hx : x.Sound) {ob : Option VmemBackend} (hb : Bound i x.net.socks ob s) (hfd : (ob.getD {}).fd = none)
    {live : OrdMap Nat Holder} (hlive : ∀ j h, live[j]? = some h → x.live[j]? = some h ∧ j ≠ i)
    (hkeep : ∀ j h, x.live[j]? = some h → j ≠ i → live[j]? = some h) {next : Nat} (hnext : x.next ≤ next) :
    Process.Sound { net := s, live, next } where
  linked j h hj := Linked.elsewhere (hx.linked j h (hlive j h hj).1) hb.2 (hlive j h hj).2
  owned fd k hk := by
    have ho := not_owned hb.1 hfd fd k hk
    obtain ⟨h, hj⟩ := hx.owned fd k ((hb.2 fd k ho).1 hk)
    exact ⟨h, hkeep _ h hj ho⟩
  older j h hj := Nat.lt_of_lt_of_le (hx.older j h (hlive j h hj).1) hnext

/-- What a constructor leaves behind. -/
theorem construct_runs {c : Config} {env : Env} {r : Except Error Unit} {a : Allocator} {ob : Option VmemBackend} (hx : x.Sound)
    (hr : Prog.Runs (tenancy out invocation x.next) ((Allocator.construct c env).run {}) (none, x.net) (r, a) (ob, s)) :
    Bound x.next x.net.socks ob s ∧ (r.isOk = true → ∀ b, ob = some b → c.smallMax.toNat ≤ 2 ^ 63 → c.SizesFit b.gran) ∧
    (r.isOk = false → (ob.getD {}).fd = none ∨ ∀ b, ob = some b → ¬c.SizesFit b.gran) := by
  have h := hr.of_wp (construct_wp invocation c env (free_next hx))
  cases r with
  | ok r => exact ⟨h.1, fun _ => h.2, nofun⟩
  | error e => exact ⟨h.1, nofun, fun _ => h.2⟩

/-- Every step of a process keeps it in order. -/
theorem sound_step (hx : x.Sound) (hs : x.Step out invocation d x') (hd : d.Tidy) : x'.Sound := by
  cases hs with
  | @construct c env r a ob s hr =>
    obtain ⟨hbound, -, herror⟩ := construct_runs hx hr
    cases hok : r.isOk with
    | true => exact sound_insert hx hbound (Nat.le_succ _) (Nat.lt_succ_self _)
    | false =>
      have hfd : (ob.getD {}).fd = none := by
        rcases herror hok with hnone | hunfit
        · exact hnone
        · cases ob with
          | none => rfl
          | some b =>
            have hlink : b.link ≠ .connected := fun hl => hunfit b rfl (hd hl)
            have hsome : ¬b.fd.isSome = true := fun hs => hlink (hbound.1.link.2 hs)
            simpa using hsome
      refine sound_gone hx hbound hfd (fun j h hj => ⟨hj, ?_⟩) (fun j h hj _ => hj) (Nat.le_succ _)
      exact Nat.ne_of_lt (hx.older j h hj)
  | @call i c h r a ob s hi hr =>
    have hbound : Bound i x.net.socks ob s := by
      have hwp := hr.of_wp (program_wp invocation c ⟨hx.linked i h hi, fun _ _ _ => Iff.rfl⟩)
      cases r with
      | ok r => exact hwp
      | error e => exact hwp
    exact sound_insert hx hbound (le_refl _) (hx.older i h hi)
  | @destroy i h r a ob s hi hr =>
    have hwp := hr.of_wp (destruct_wp invocation ⟨hx.linked i h hi, fun _ _ _ => Iff.rfl⟩)
    cases r with
    | error e => exact hwp.elim
    | ok r =>
      refine sound_gone hx hwp.1 hwp.2 (fun j h hj => ?_) (fun j h hj hne => ?_) (le_refl _)
      · rw [OrdMap.getElem?_erase] at hj
        split at hj
        · exact nomatch hj
        · next hne => exact ⟨hj, hne⟩
      · rw [OrdMap.getElem?_erase, if_neg hne]
        exact hj
  | broker h =>
    have hsocks := socks_later (.single h)
    exact ⟨fun i h hi => by rw [hsocks]; exact hx.linked i h hi, fun fd k hk => hx.owned fd k (hsocks ▸ hk), hx.older⟩

/-- Every run whose steps are tidy keeps the process in order. -/
theorem reached_sound (h : x.Reached out invocation Deed.Tidy broker) : x.Sound := by
  induction h with
  | start => exact sound_start
  | step _ hs hd ih => exact sound_step ih hs hd

/-! ## What the broker counts -/

section

variable (hreads : ∀ b e, out.reads b e → b.KeepsMovingSize e)

include hreads

/-- The broker of a process goes through states of its own runs. -/
theorem broker_later (h : Net.Later out s t) (hs : s.broker.Reached out.cfg Broker.KeepsMovingSize) :
    t.broker.Reached out.cfg Broker.KeepsMovingSize := by
  induction h with
  | refl => exact hs
  | tail _ hstep ih =>
    cases hstep with
    | accept h | foreign h => exact .step ih trivial
    | read h => exact .step ih (hreads _ _ h)
    | crash => exact .start

/-- No call of a backend changes the broker. -/
theorem broker_answers {o : Op} {r : o.Answer} {s' : Net} (h : (Net.world out i).answers o s r s')
    (hs : s.broker.Reached out.cfg Broker.KeepsMovingSize) : s'.broker.Reached out.cfg Broker.KeepsMovingSize := by
  obtain ⟨t, ht, hr⟩ := h
  have hbroker : s'.broker = t.broker := by
    cases o with
    | socket =>
      cases r with
      | ok fd => rw [hr.2]
      | error e => rw [show s' = t from hr]
    | connect fd path =>
      cases r with
      | none =>
        obtain ⟨n, -, -, hr⟩ := hr
        rw [hr]
      | some e => rw [show s' = t from hr]
    | close fd => rw [show s' = _ from hr]
    | _ => rw [show s' = t from hr]
  rw [hbroker]
  exact broker_later hreads ht hs

/-- A run of one process only brings events to the broker. -/
theorem broker_runs {α : Type} {p : Prog BackendCall BackendCall.Answer α} {a : α} {y y' : Option VmemBackend × Net}
    (h : Prog.Runs (tenancy out invocation i) p y a y') (hs : y.2.broker.Reached out.cfg Broker.KeepsMovingSize) :
    y'.2.broker.Reached out.cfg Broker.KeepsMovingSize :=
  h.keeps (P := fun y => y.2.broker.Reached out.cfg Broker.KeepsMovingSize)
    (fun _ _ _ _ hr => Prog.over_keeps (fun _ _ _ _ => broker_answers hreads) hr) hs

/-- So does a step of the processes. -/
theorem broker_step (hs : x.Step out invocation d x') (hx : x.net.broker.Reached out.cfg Broker.KeepsMovingSize) :
    x'.net.broker.Reached out.cfg Broker.KeepsMovingSize := by
  cases hs with
  | construct hr => exact broker_runs hreads hr hx
  | call hi hr => exact broker_runs hreads hr hx
  | destroy hi hr => exact broker_runs hreads hr hx
  | broker h => exact broker_later hreads (.single h) hx

/-- In every run of a process the broker is in a state of a run of its own. -/
theorem broker_reached (h : x.Reached out invocation ok broker) (hb : broker.Reached out.cfg Broker.KeepsMovingSize) :
    x.net.broker.Reached out.cfg Broker.KeepsMovingSize := by
  induction h with
  | start => exact hb
  | step _ hs _ ih => exact broker_step hreads hs ih

end

/-- The connection of an allocator. -/
def connOf (x : Process) (h : Holder) : ConnId :=
  match (h.b.getD {}).fd with
  | none => 0
  | some fd => (x.net.socks[fd]?.bind Sock.conn).getD 0

/-- The tenants of the process that said `Hello`. -/
def greeted (s : Net) : ℕ := OrdMap.total s.broker.tenants fun n t => if s.made.contains n ∧ t.hello = true then 1 else 0

/-- Once the broker has read every end, each tenant of the process is the connection of a live allocator of its own. -/
theorem greeted_le (hx : x.Sound) (hsettled : x.net.Settled) : greeted x.net ≤ x.live.size := by
  have hconst : OrdMap.total x.live (fun _ _ => 1) = x.live.size := by
    rw [OrdMap.total, List.map_const', List.sum_replicate, Std.ExtTreeMap.length_toList, smul_eq_mul, mul_one]
  rw [← hconst, greeted]
  refine OrdMap.total_le_of_embed (fun _ h => connOf x h) fun n t ht hne => ?_
  split at hne
  · next hmine =>
    have hmade : x.net.made[n]? ≠ none := by
      have hc := hmine.1
      rw [Std.ExtTreeMap.contains_eq_isSome_getElem?] at hc
      exact Option.isSome_iff_ne_none.1 hc
    obtain ⟨fd, k, hk, hconn⟩ := hsettled n t ht hmade
    obtain ⟨h, hlive⟩ := hx.owned fd k hk
    refine ⟨k.owner, h, hlive, ?_, ?_⟩
    · rw [connOf, (hx.linked _ h hlive).own fd k hk rfl]
      simp [hk, hconn]
    · rw [if_pos hmine]
  · exact absurd rfl hne

/-- The count of a tenant on the device. -/
theorem device_eq {ov : Size} {t : Tenant} (h : t.Sound ov) :
    t.device = (if t.hello = true then ov else 0) + t.recorded id .device + t.reserved id .device := by
  have hc := h.counts .device
  simpa [Tenant.count, Tenant.owed, Tenant.overhead] using hc

/-- The counts of the process's tenants, added up. -/
theorem counted_eq (h : x.net.broker.Reached out.cfg Broker.KeepsMovingSize) :
    x.net.counted = greeted x.net * out.cfg.ctxOverhead + x.net.chunkBytes := by
  have hoverhead : (greeted x.net : Size) * out.cfg.ctxOverhead =
      OrdMap.total x.net.broker.tenants fun n t => if x.net.made.contains n ∧ t.hello = true then out.cfg.ctxOverhead else 0 := by
    have hmul := OrdMap.map_total ((AddMonoidHom.mulRight out.cfg.ctxOverhead).comp (Nat.castAddMonoidHom Size)) x.net.broker.tenants
      fun n t => if x.net.made.contains n ∧ t.hello = true then 1 else 0
    refine Eq.trans hmul (OrdMap.total_congr fun n t _ => ?_)
    split
    · simp
    · simp
  rw [hoverhead, Net.chunkBytes, ← OrdMap.total_add, Net.counted]
  refine OrdMap.total_congr fun n t ht => ?_
  have hdev := device_eq (h.ctxOverhead ▸ h.sound (fun _ _ h => h) n t ht)
  by_cases hmine : x.net.made.contains n
  · rw [if_pos hmine, if_pos hmine, hdev, add_assoc]
    simp [hmine]
  · simp [hmine]

end TenancyAux

end Vmem
