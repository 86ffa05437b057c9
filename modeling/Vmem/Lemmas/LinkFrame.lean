import Vmem.LinkHistory

/-!
# What a backend keeps about its link

The calls of a backend touch its link only to send a message, to exchange one for a reply, and to reconnect. What these three keep, and
what depends on nothing of the object but the descriptor and the link, every call keeps (`LinkFrame`).
-/

namespace Vmem

/-- The call is one of the socket. -/
def Op.ofLink : Op → Bool
  | .socket => true
  | .setsockopt _ _ => true
  | .connect _ _ => true
  | .close _ => true
  | .send _ _ => true
  | .recv _ => true
  | _ => false

/-- Two objects with the same descriptor, link and granularity. -/
structure VmemBackend.Kin (b b' : VmemBackend) : Prop where
  fd : b'.fd = b.fd
  link : b'.link = b.link
  gran : b'.gran = b.gran

/-- Recording chunks and bytes leaves the link and the granularity. -/
theorem VmemBackend.kin_setUsed (b : VmemBackend) (m : OrdMap Ptr Rec) (l : Loc) (x : Size) :
    b.Kin (({ b with chunks := m } : VmemBackend).setUsed l x) := by
  cases l <;> exact ⟨rfl, rfl, rfl⟩

/-- An invariant of these, that no call but those of the socket is about. -/
structure ObjectFrame {S : Type} (W : Prog.World Op Op.Answer S) (T : VmemBackend → S → Prop) : Prop where
  object : ∀ {b b' : VmemBackend} {s : S}, T b s → b.Kin b' → T b' s
  other : ∀ {o : Op}, o.ofLink = false → Code.Keeps W T (VmemBackend.ask o)

/-- One that messages and reconnects keep too. -/
structure LinkFrame {S : Type} (W : Prog.World Op Op.Answer S) (T : VmemBackend → S → Prop) : Prop extends ObjectFrame W T where
  send : ∀ m : Msg, Code.Keeps W T (VmemBackend.sendMsg m)
  exchange : ∀ m : Msg, Code.Keeps W T (VmemBackend.sendAndRecv m)
  reconnect : Code.Keeps W T VmemBackend.reconnect

namespace ObjectFrame

open VmemBackend Code

variable {S : Type} {W : Prog.World Op Op.Answer S} {T : VmemBackend → S → Prop}

/-- An update that leaves the link and the granularity keeps such an invariant. -/
theorem modify (h : ObjectFrame W T) {u : VmemBackend → VmemBackend} (hu : ∀ b : VmemBackend, b.Kin (u b)) : Keeps W T (modify u) :=
  keeps_modify fun b _ hb => h.object hb (hu b)

/-! ## The driver's functions -/

/-- A checked driver call is no call of the socket. -/
theorem cu (h : ObjectFrame W T) (c : CuCall) (what : String) : Keeps W T (cu c what) := by
  refine keeps_bind (h.other (o := .cu c) rfl) fun r => ?_
  cases r with
  | ok v => exact keeps_pure _
  | error e => exact keeps_bind (h.modify fun _ => ⟨rfl, rfl, rfl⟩) fun _ => keeps_pure _

theorem drop (h : ObjectFrame W T) (c : CuCall) : Keeps W T (drop c) := h.other rfl

/-- Physical memory is made by one driver call. -/
theorem createHandle (h : ObjectFrame W T) (size : Size) (l : Loc) : Keeps W T (createHandle size l) :=
  keeps_bind keeps_get fun _ => h.cu _ _

/-- Mapping keeps it, with the unmapping after an access that fails. -/
theorem map (h : ObjectFrame W T) (va : Ptr) (size : Size) (nh : Handle) : Keeps W T (map va size nh) := by
  refine keeps_bind (h.cu _ _) fun r => keeps_ite (keeps_pure _) (keeps_bind keeps_get fun b => ?_)
  refine keeps_bind (h.cu _ _) fun r => keeps_ite ?_ (keeps_pure _)
  exact keeps_bind (h.drop _) fun _ => keeps_pure _

/-- So does the copy through a temporary range, whatever fails on the way. -/
theorem copyVia (h : ObjectFrame W T) (tmp : Ptr) (nh : Handle) (va : Ptr) (size : Size) : Keeps W T (copyVia tmp nh va size) := by
  refine keeps_bind (h.map _ _ _) fun s => keeps_ite (keeps_bind ?_ fun s => ?_) (keeps_pure _)
  · exact keeps_bind (h.cu _ _) fun _ => keeps_ite (keeps_pure _) (keeps_bind (h.cu _ _) fun _ => keeps_pure _)
  · exact keeps_bind (h.drop _) fun _ => keeps_pure _

/-- So does the copy with the range that it reserves and gives back. -/
theorem copyInto (h : ObjectFrame W T) (nh : Handle) (va : Ptr) (size : Size) : Keeps W T (copyInto nh va size) := by
  refine keeps_bind keeps_get fun b => keeps_bind (h.cu _ _) fun r => ?_
  refine keeps_bind (keeps_ite (h.copyVia _ _ _ _) (keeps_pure _)) fun s => keeps_ite ?_ (keeps_pure _)
  exact keeps_bind (h.drop _) fun _ => keeps_pure _

/-- So does putting other memory behind a range, with the way back. -/
theorem replaceBacking (h : ObjectFrame W T) (va : Ptr) (size : Size) (old nh : Handle) : Keeps W T (replaceBacking va size old nh) := by
  refine keeps_bind (h.cu _ _) fun r => keeps_ite (keeps_pure _) ?_
  refine keeps_bind (h.map _ _ _) fun s => keeps_ite (keeps_pure _) ?_
  exact keeps_bind (h.map _ _ _) fun _ => keeps_pure _

/-- Looking a handle up keeps it, as it only reads the records. -/
theorem handleOf (h : ObjectFrame W T) (va : Ptr) : Keeps W T (handleOf va) := by
  refine keeps_bind keeps_get fun b => ?_
  split
  · exact keeps_pure _
  · exact keeps_bind (h.other (o := .atFailed) rfl) fun r => r.elim

/-- So does the exchange of the memory of a chunk. -/
theorem swap (h : ObjectFrame W T) (c : Chunk) (target : Loc) : Keeps W T (swap c target) := by
  refine keeps_bind (h.handleOf _) fun old => keeps_bind (h.createHandle _ _) fun n => ?_
  refine keeps_ite (keeps_pure _) (keeps_bind (h.copyInto _ _ _) fun s => ?_)
  refine keeps_bind (keeps_ite (h.replaceBacking _ _ _ _) (keeps_pure _)) fun s => keeps_ite ?_ ?_
  · exact keeps_bind (h.drop _) fun _ => keeps_pure _
  · refine keeps_bind (h.drop _) fun _ => keeps_bind (h.modify fun _ => ⟨rfl, rfl, rfl⟩) fun _ => ?_
    refine keeps_bind (h.modify fun b => kin_setUsed b b.chunks _ _) fun _ => ?_
    exact keeps_bind (h.modify fun b => kin_setUsed b b.chunks _ _) fun _ => keeps_pure _

/-! ## Opening -/

/-- An invariant that allows any granularity survives reading one. -/
theorem readGranularity (h : ObjectFrame W T) (hg : ∀ {b : VmemBackend} {s : S} (g : Size), T b s → T { b with gran := g } s) :
    Keeps W T readGranularity := by
  refine keeps_bind keeps_get fun b => keeps_bind (h.cu _ _) fun gd => keeps_ite (keeps_pure _) ?_
  refine keeps_bind (h.cu _ _) fun gh => keeps_ite (keeps_pure _) (keeps_bind ?_ fun _ => keeps_pure _)
  exact keeps_modify fun b s hb => hg _ hb

/-- `open`: it fails before its last part, or ends with it. -/
theorem openBackend_wp (h : ObjectFrame W T) {c : BackendConfig} {invocation : List UInt8} {Q : Status → VmemBackend → S → Prop}
    (hg : ∀ {b : VmemBackend} {s : S} (g : Size), T b s → T { b with gran := g } s)
    (hfail : ∀ (st : Status) (b : VmemBackend) (s : S), st ≠ .ok → T b s → Q st b s)
    (hd : ∀ (b : VmemBackend) (s : S), T b s → Code.wp W (openDaemon c invocation) Q b s) {b : VmemBackend} {s : S} (hb : T b s) :
    Code.wp W (openBackend c invocation) Q b s := by
  unfold openBackend
  rw [Code.wp_bind, Code.wp_modify]
  refine Code.wp_seq (h.other (o := .cudaSetDevice c.device) rfl _ s (h.object hb ⟨rfl, rfl, rfl⟩)) fun set b s hb => ?_
  have hctx : Keeps W T (if set then ask .cudaFreeNull else pure false) := keeps_ite (h.other (o := .cudaFreeNull) rfl) (keeps_pure _)
  refine Code.wp_seq (hctx b s hb) fun ctx b s hb => ?_
  split
  · rw [Code.wp_bind, Code.wp_modify]
    exact hfail _ _ s nofun (h.object hb ⟨rfl, rfl, rfl⟩)
  · refine Code.wp_seq (h.other (o := .attribute .vmm c.device) rfl b s hb) fun vmm b s hb => ?_
    refine Code.wp_seq (h.other (o := .attribute .hostVmm c.device) rfl b s hb) fun hostVmm b s hb => ?_
    refine Code.wp_seq (h.other (o := .attribute .hostNumaId c.device) rfl b s hb) fun numa b s hb => ?_
    split
    · rw [Code.wp_bind, Code.wp_modify]
      exact hfail _ _ s nofun (h.object hb ⟨rfl, rfl, rfl⟩)
    · rw [Code.wp_bind, Code.wp_modify]
      refine Code.wp_seq (h.readGranularity hg _ s (h.object hb ⟨rfl, rfl, rfl⟩)) fun st b s hb => ?_
      by_cases hst : st = .ok
      · rw [if_neg (by simpa using hst)]
        exact hd b s hb
      · rw [if_pos hst]
        exact hfail st b s hst hb

/-- `open`, if its last part keeps the invariant. -/
theorem openBackend (h : ObjectFrame W T) {c : BackendConfig} {invocation : List UInt8}
    (hg : ∀ {b : VmemBackend} {s : S} (g : Size), T b s → T { b with gran := g } s) (hd : Keeps W T (openDaemon c invocation)) :
    Keeps W T (openBackend c invocation) := fun _ _ hb => h.openBackend_wp hg (fun _ _ _ _ h => h) (fun b s h => hd b s h) hb

end ObjectFrame

namespace LinkFrame

open VmemBackend Code

variable {S : Type} {W : Prog.World Op Op.Answer S} {T : VmemBackend → S → Prop}

/-! ## The calls -/

/-- An attempt to reconnect keeps an invariant that `connectBroker` keeps. -/
theorem maybeReconnect (h : LinkFrame W T) : Keeps W T maybeReconnect :=
  keeps_bind keeps_get fun _ => keeps_ite (keeps_bind h.reconnect fun _ => keeps_pure _) (keeps_pure _)

/-- The question where a chunk goes is one exchange, or none. -/
theorem decidePlace (h : LinkFrame W T) (va : Ptr) (size : Size) : Keeps W T (decidePlace va size) := by
  refine keeps_bind keeps_get fun b₀ => keeps_ite (keeps_pure _) (keeps_bind (h.exchange _) fun rep => ?_)
  cases rep with
  | none => exact keeps_pure _
  | some rep => exact keeps_ite (keeps_bind (h.modify fun _ => ⟨rfl, rfl, rfl⟩) fun _ => keeps_pure _) (keeps_pure _)

/-- So does making the handle of a chunk, with the `AllocFail` when it lands on the host. -/
theorem createAt (h : LinkFrame W T) (va : Ptr) (size : Size) (loc : Loc) (counted : Bool) :
    Keeps W T (createAt va size loc counted) := by
  refine keeps_bind (h.createHandle _ _) fun r => keeps_ite ?_ (keeps_pure _)
  refine keeps_bind (h.createHandle _ _) fun r => keeps_ite ?_ (keeps_pure _)
  exact keeps_bind (h.send _) fun _ => keeps_pure _

/-- So does making the handle and mapping it. -/
theorem createMapped (h : LinkFrame W T) (va : Ptr) (size : Size) (loc : Loc) (counted : Bool) :
    Keeps W T (createMapped va size loc counted) := by
  refine keeps_bind (h.createAt _ _ _ _) fun r => keeps_ite (keeps_bind (h.map _ _ _) fun s => ?_) (keeps_pure _)
  exact keeps_ite (keeps_bind (h.drop _) fun _ => keeps_pure _) (keeps_pure _)

/-- `create` keeps it. -/
theorem create (h : LinkFrame W T) (size : Size) (out : Chunk) : Keeps W T (create size out) := by
  refine keeps_bind keeps_get fun b => keeps_bind (h.cu _ _) fun r => keeps_ite (keeps_pure _) ?_
  refine keeps_bind h.maybeReconnect fun _ => keeps_bind (h.decidePlace _ _) fun d => keeps_ite ?_ ?_
  · exact keeps_bind (h.drop _) fun _ => keeps_pure _
  · refine keeps_bind (h.createMapped _ _ _ _) fun r => keeps_ite ?_ ?_
    · refine keeps_bind (keeps_ite ?_ (keeps_pure _)) fun _ => keeps_bind (h.drop _) fun _ => keeps_pure _
      exact keeps_bind (h.send _) fun _ => keeps_pure _
    · exact keeps_bind (h.modify fun b => kin_setUsed b _ _ _) fun _ => keeps_pure _

/-- `destroy` keeps it. -/
theorem destroy (h : LinkFrame W T) (c : Chunk) : Keeps W T (destroy c) := by
  refine keeps_bind (keeps_bind (h.cu _ _) fun r => keeps_ite (keeps_pure _) ?_) fun s => keeps_ite (keeps_pure _) ?_
  · refine keeps_bind (h.handleOf _) fun nh => keeps_bind (h.cu _ _) fun r => keeps_ite (keeps_pure _) ?_
    exact keeps_bind (h.cu _ _) fun _ => keeps_pure _
  · refine keeps_bind (h.modify fun b => kin_setUsed b _ _ _) fun _ => ?_
    exact keeps_bind (h.send _) fun _ => keeps_pure _

/-- `move` keeps it. -/
theorem move (h : LinkFrame W T) (c : Chunk) (target : Loc) : Keeps W T (move c target) := by
  have hswap (asked : Bool) : Keeps W T (swapReported c target asked) := by
    refine keeps_bind (h.swap _ _) fun r => keeps_ite ?_ (keeps_pure _)
    exact keeps_bind (h.send _) fun _ => keeps_pure _
  refine keeps_ite (keeps_pure _) (keeps_bind h.maybeReconnect fun _ => keeps_bind keeps_get fun b => ?_)
  refine keeps_ite (keeps_bind (h.exchange _) fun rep => ?_) (hswap false)
  cases rep with
  | none => exact hswap false
  | some rep =>
    refine keeps_ite ?_ (hswap true)
    exact keeps_bind (h.modify fun _ => ⟨rfl, rfl, rfl⟩) fun _ => keeps_pure _

/-- So every call about chunks keeps it. -/
theorem program (h : LinkFrame W T) (c : ChunkCall) : Keeps W T c.program := by
  cases c with
  | create size out => exact h.create _ _
  | destroy c => exact h.destroy _
  | move c target => exact h.move _ _

end LinkFrame

end Vmem
