import Vmem.Lemmas.GuaranteeRuns
import Vmem.Lemmas.Ledger
import Vmem.Lemmas.LinkFrame

/-!
# The vmem backend is a heap

Whatever the vmem backend does over a driver, for an allocator that keeps to the ledger, a `Heap` may do. Through a call the old chunks keep
their contents, and the new ones lie apart from them.
-/

namespace Vmem

namespace StackAux

open VmemBackend Code GuaranteeAux

variable {β α : Type} {g : Size}

/-! ## The granularity -/

/-- Code that keeps the granularity. -/
abbrev KeepsGran (β : Type) (g : Size) (x : BackendM α) : Prop := Keeps (Cuda.proper β) (fun b _ => b.gran = g) x

/-- No call outside changes the granularity. -/
theorem keepsGran_ask (o : Op) : KeepsGran β g (ask o) := keeps_call fun _ _ h => ⟨trivial, fun _ _ _ => h⟩

/-- Closing the link keeps it. -/
theorem keepsGran_disconnectBroker (next : Link) : KeepsGran β g (disconnectBroker next) := by
  refine keeps_bind (keeps_bind keeps_get fun b => ?_) fun _ => keeps_modify fun _ _ h => h
  split
  · exact keepsGran_ask _
  · exact keeps_pure _

/-- A failed step of the link. -/
theorem keepsGran_break (e : ErrText) (next : Link) (a : α) :
    KeepsGran β g (do modify fun b => { b with err := e }; disconnectBroker next; pure a) :=
  keeps_bind (keeps_modify fun _ _ h => h) fun _ => keeps_bind (keepsGran_disconnectBroker _) fun _ => keeps_pure _

/-- Sending keeps it. -/
theorem keepsGran_sendMsg (m : Msg) : KeepsGran β g (sendMsg m) := by
  refine keeps_bind keeps_get fun b => keeps_ite (keeps_pure _) (keeps_bind (keepsGran_ask _) fun r => ?_)
  split
  · exact keeps_pure _
  · exact keepsGran_break _ _ _

/-- So does sending with a reply. -/
theorem keepsGran_sendAndRecv (m : Msg) : KeepsGran β g (sendAndRecv m) := by
  refine keeps_bind (keepsGran_sendMsg m) fun sent => keeps_ite (keeps_pure _) ?_
  refine keeps_bind keeps_get fun b => keeps_bind (keepsGran_ask _) fun r => ?_
  split
  · exact keeps_pure _
  all_goals exact keepsGran_break _ _ _

theorem keepsGran_connectBroker : KeepsGran β g connectBroker := by
  have hfail (fd : Fd) (e : Option Errno) : KeepsGran β g (do ask (.close fd); pure e) :=
    keeps_bind (keepsGran_ask _) fun _ => keeps_pure _
  refine keeps_bind keeps_get fun b => keeps_ite (keeps_pure _) (keeps_bind (keepsGran_ask _) fun s => ?_)
  split
  · exact keeps_pure _
  · refine keeps_bind (keepsGran_ask _) fun r => ?_
    split
    · exact hfail _ _
    · refine keeps_bind (keepsGran_ask _) fun r => ?_
      split
      · exact hfail _ _
      · refine keeps_bind (keeps_modify fun _ _ h => h) fun _ => keeps_bind keeps_get fun b => ?_
        exact keeps_bind (keepsGran_sendAndRecv _) fun _ => keeps_pure _

theorem keepsGran_resyncAll (cs : List (Ptr × Rec)) : KeepsGran β g (resyncAll cs) := by
  induction cs with
  | nil => exact keeps_pure _
  | cons p cs ih => exact keeps_bind (keepsGran_sendMsg _) fun _ => ih

theorem keepsGran_reconnect : KeepsGran β g reconnect := by
  refine keeps_bind keeps_get fun b => keeps_ite (keeps_bind (keeps_modify fun _ _ h => h) fun _ => keeps_pure _) ?_
  refine keeps_bind (keepsGran_disconnectBroker _) fun _ => keeps_bind keepsGran_connectBroker fun e => ?_
  split
  · exact keeps_bind (keeps_modify fun _ _ h => h) fun _ => keeps_pure _
  · exact keeps_bind (keepsGran_resyncAll _) fun _ => keeps_bind keeps_get fun b => keeps_pure _

/-- Every call about chunks keeps the granularity. -/
theorem granFrame : LinkFrame (Cuda.proper β) (fun b _ => b.gran = g) where
  object h hk := hk.gran.trans h
  other _ := keepsGran_ask _
  send := keepsGran_sendMsg
  exchange := keepsGran_sendAndRecv
  reconnect := keepsGran_reconnect

/-! ## Opening -/

/-- What holds for any answers holds for the proper ones. -/
theorem wp_proper {x : BackendM α} {Q : α → VmemBackend → Cuda β → Prop} {b : VmemBackend} {d : Cuda β}
    (h : Code.wp (Cuda.world β) x Q b d) : Code.wp (Cuda.proper β) x Q b d :=
  Prog.wp_of_fewer (U := Cuda.proper β) (V := Cuda.world β) (fun _ _ h => h) (fun _ _ _ _ h => And.left h) h

/-- Only the link and the object's settings have changed. -/
def Unmoved (b : VmemBackend) (d : Cuda β) (b' : VmemBackend) (d' : Cuda β) : Prop := b.SameMemory b' ∧ d' = d

/-- Quiet code leaves the records and the driver. -/
theorem unmoved_quiet {x : BackendM α} (hx : Quiet β x) (b : VmemBackend) (d : Cuda β) : Keeps (Cuda.proper β) (Unmoved b d) x := by
  rintro b' d' ⟨hb, rfl⟩
  exact Code.wp_mono (wp_proper (hx b' d')) fun _ _ _ h => ⟨hb.trans h.1, h.2⟩

/-- Quiet code that keeps the granularity keeps it positive. -/
theorem positive_quiet {x : BackendM α} (hx : Quiet β x) (hg : ∀ g, KeepsGran β g x) (b : VmemBackend) (d : Cuda β) :
    Keeps (Cuda.proper β) (fun b' d' => Unmoved b d b' d' ∧ b'.gran ≠ 0) x := by
  rintro b' d' ⟨h, hpos⟩
  refine Prog.wp_and (unmoved_quiet hx b d b' d' h) (Prog.wp_mono ?_ (hg b'.gran b' d' rfl))
  exact fun r _ hr => hr.symm ▸ hpos

/-- A granularity that the driver gives is not zero. -/
theorem granularity_wp {p : MemProp} {what : String} {b b' : VmemBackend} {d d' : Cuda β} (h : Unmoved b d b' d') :
    Code.wp (Cuda.proper β) (cu (.granularity p) what) (fun r b' d' => Unmoved b d b' d' ∧ (r.1 = .ok → r.2 ≠ 0)) b' d' := by
  unfold cu
  rw [Code.wp_bind]
  refine ⟨trivial, fun r d'' hr => ?_⟩
  cases r with
  | ok v =>
    obtain ⟨⟨-, -, rfl⟩, hv⟩ := hr
    exact ⟨h, fun _ => hv⟩
  | error e =>
    obtain rfl : d'' = d' := hr.1
    refine ⟨⟨h.1.trans ⟨rfl, rfl, rfl⟩, h.2⟩, fun hok => absurd hok ?_⟩
    by_cases he : e = .outOfMemory <;> simp [he]

/-- Neither is the one that is read. -/
theorem readGranularity_wp {b b' : VmemBackend} {d d' : Cuda β} (h : Unmoved b d b' d') :
    Code.wp (Cuda.proper β) readGranularity (fun s b' d' => Unmoved b d b' d' ∧ (s = .ok → b'.gran ≠ 0)) b' d' := by
  unfold readGranularity
  rw [Code.wp_bind, Code.wp_get]
  refine Code.wp_seq (granularity_wp h) fun gd b₁ d₁ h₁ => ?_
  rw [Code.wp_ite]
  refine ⟨fun hne => ⟨h₁.1, fun hok => absurd hok hne⟩, fun hd => Code.wp_seq (granularity_wp h₁.1) fun gh b₂ d₂ h₂ => ?_⟩
  rw [Code.wp_ite]
  refine ⟨fun hne => ⟨h₂.1, fun hok => absurd hok hne⟩, fun hh => ⟨⟨h₂.1.1.trans ⟨rfl, rfl, rfl⟩, h₂.1.2⟩, fun _ => ?_⟩⟩
  show (if gd.2 > gh.2 then gd.2 else gh.2) ≠ 0
  split
  · exact h₁.2 (not_not.1 hd)
  · exact h₂.2 (not_not.1 hh)

/-- An opened backend has a positive granularity, and nothing else than the link and the settings has changed. -/
theorem openBackend_wp (c : BackendConfig) (invocation : List UInt8) (b : VmemBackend) (d : Cuda β) :
    Code.wp (Cuda.proper β) (openBackend c invocation) (fun s b' d' => Unmoved b d b' d' ∧ (s = .ok → b'.gran ≠ 0)) b d := by
  have hask (o : Op) (ho : ∀ (d : Cuda β) (r : o.Answer) (d' : Cuda β), (Cuda.world β).answers o d r d' → d' = d) :
      Keeps (Cuda.proper β) (Unmoved b d) (ask o) := unmoved_quiet (quiet_ask ho) b d
  unfold openBackend
  rw [Code.wp_bind, Code.wp_modify]
  have h₁ : Unmoved b d { b with dev := c.device } d := ⟨⟨rfl, rfl, rfl⟩, rfl⟩
  refine Code.wp_seq (hask (.cudaSetDevice c.device) (fun _ _ _ h => h) _ _ h₁) fun set b₁ d₁ h₁ => ?_
  have hctx : Keeps (Cuda.proper β) (Unmoved b d) (if set then ask .cudaFreeNull else pure false) :=
    keeps_ite (hask .cudaFreeNull fun _ _ _ h => h) (keeps_pure _)
  refine Code.wp_seq (hctx b₁ d₁ h₁) fun ctx b₁ d₁ h₁ => ?_
  rw [Code.wp_ite]
  refine ⟨fun _ => ⟨⟨h₁.1.trans ⟨rfl, rfl, rfl⟩, h₁.2⟩, by simp⟩, fun _ => ?_⟩
  refine Code.wp_seq (hask (.attribute .vmm c.device) (fun _ _ _ h => h) b₁ d₁ h₁) fun vmm b₁ d₁ h₁ => ?_
  refine Code.wp_seq (hask (.attribute .hostVmm c.device) (fun _ _ _ h => h) b₁ d₁ h₁) fun hostVmm b₁ d₁ h₁ => ?_
  refine Code.wp_seq (hask (.attribute .hostNumaId c.device) (fun _ _ _ h => h) b₁ d₁ h₁) fun numa b₁ d₁ h₁ => ?_
  rw [Code.wp_ite]
  refine ⟨fun _ => ⟨⟨h₁.1.trans ⟨rfl, rfl, rfl⟩, h₁.2⟩, by simp⟩, fun _ => ?_⟩
  rw [Code.wp_bind, Code.wp_modify]
  refine Code.wp_seq (readGranularity_wp ⟨h₁.1.trans ⟨rfl, rfl, rfl⟩, h₁.2⟩) fun s b₃ d₃ h₃ => ?_
  rw [Code.wp_ite]
  refine ⟨fun hs => ⟨h₃.1, fun hok => absurd hok hs⟩, fun hs => ?_⟩
  have hpos : b₃.gran ≠ 0 := h₃.2 (not_not.1 hs)
  unfold openDaemon
  split
  · exact ⟨h₃.1, fun _ => hpos⟩
  · rw [Code.wp_bind, Code.wp_modify]
    refine Code.wp_seq
      (positive_quiet quiet_connectBroker (fun g => keepsGran_connectBroker) b d _ d₃ ⟨⟨h₃.1.1.trans ⟨rfl, rfl, rfl⟩, h₃.1.2⟩, hpos⟩)
      fun e b₄ d₄ h₄ => ?_
    cases e with
    | none => exact ⟨h₄.1, fun _ => h₄.2⟩
    | some e =>
      dsimp only
      rw [Code.wp_ite]
      exact ⟨fun _ => ⟨h₄.1, fun _ => h₄.2⟩, fun _ => ⟨⟨h₄.1.1.trans ⟨rfl, rfl, rfl⟩, h₄.1.2⟩, by simp⟩⟩

/-! ## Moves -/

/-- Whatever a move comes to, it names the same chunk. -/
theorem wp_any (x : BackendM α) (b : VmemBackend) (d : Cuda β) : Code.wp (Cuda.world β) x (fun _ _ _ => True) b d := by
  have h (p : Prog Op Op.Answer (α × VmemBackend)) : ∀ d : Cuda β, p.wp (Cuda.world β) (fun _ _ => True) d := by
    induction p with
    | ret a => exact fun _ => trivial
    | op i k ih => exact fun _ => ⟨trivial, fun r d' _ => ih r d'⟩
  exact h (x b) d

/-- The caller's chunk, at any place. -/
def SameChunk (c : Chunk) (r : Status × Chunk) : Prop := r.2.ptr = c.ptr ∧ r.2.size = c.size

/-- A move that is reported hands back the same chunk, at the target or not. -/
theorem swapReported_chunk (c : Chunk) (target : Loc) (asked : Bool) (b : VmemBackend) (d : Cuda β) :
    Code.wp (Cuda.world β) (swapReported c target asked) (fun r _ _ => SameChunk c r) b d := by
  have hswap : Code.wp (Cuda.world β) (swap c target) (fun r _ _ => SameChunk c r) b d := by
    unfold swap
    refine Code.wp_seq (wp_any _ b d) fun old b d _ => Code.wp_seq (wp_any _ b d) fun n b d _ => ?_
    rw [Code.wp_ite]
    refine ⟨fun _ => ⟨rfl, rfl⟩, fun _ => Code.wp_seq (wp_any _ b d) fun s b d _ => Code.wp_seq (wp_any _ b d) fun s b d _ => ?_⟩
    rw [Code.wp_ite]
    refine ⟨fun _ => Code.wp_seq (wp_any _ b d) fun _ b d _ => ⟨rfl, rfl⟩, fun _ => Code.wp_seq (wp_any _ b d) fun _ b d _ => ?_⟩
    exact ⟨rfl, rfl⟩
  unfold swapReported
  refine Code.wp_seq hswap fun r b d hr => ?_
  rw [Code.wp_ite]
  exact ⟨fun _ => Code.wp_seq (wp_any _ b d) fun _ _ _ _ => hr, fun _ => hr⟩

theorem move_chunk (c : Chunk) (target : Loc) (b : VmemBackend) (d : Cuda β) :
    Code.wp (Cuda.world β) (VmemBackend.move c target) (fun r _ _ => SameChunk c r) b d := by
  unfold VmemBackend.move
  rw [Code.wp_ite]
  refine ⟨fun _ => ⟨rfl, rfl⟩, fun _ => Code.wp_seq (wp_any _ b d) fun _ b d _ => ?_⟩
  rw [Code.wp_bind, Code.wp_get, Code.wp_ite]
  refine ⟨fun _ => Code.wp_seq (wp_any _ b d) fun rep b d _ => ?_, fun _ => swapReported_chunk c target false b d⟩
  cases rep with
  | none => exact swapReported_chunk c target false b d
  | some rep =>
    dsimp only
    rw [Code.wp_ite]
    exact ⟨fun _ => ⟨rfl, rfl⟩, fun _ => swapReported_chunk c target true b d⟩

/-! ## The heap of the backend -/

/-- No reservation reaches the end of the address space. -/
def Below (d : Cuda β) : Prop := ∀ (va : Ptr) (s : Size), d.reservations[va]? = some s → va.toNat + s.toNat < 2 ^ 64

/-- Ranges stay below the end of the address space. -/
theorem below_after {d : Cuda β} (hb : Below d) {c : CuCall} {v : BitVec 64} (x : β)
    (hp : ∀ size align : Size, c = .reserve size align → v.toNat + size.toNat < 2 ^ 64) : Below (d.after c v x) := by
  cases c with
  | reserve size align =>
    intro va s hs
    simp only [Cuda.after, OrdMap.getElem?_insert] at hs
    split at hs
    · cases hs
      subst va
      exact hp _ _ rfl
    · exact hb va s hs
  | addressFree va size =>
    intro va' s hs
    simp only [Cuda.after, OrdMap.getElem?_erase] at hs
    split at hs
    · cases hs
    · exact hb va' s hs
  | setAccess va size dev =>
    unfold Cuda.after
    dsimp only
    split <;> exact hb
  | memcpyDtoD dst src size =>
    unfold Cuda.after
    dsimp only
    split
    · intro va s hs
      rw [write_reservations] at hs
      exact hb va s hs
    · exact hb
  | _ => exact hb

/-- So they do after every proper answer. -/
theorem below_answers {d d' : Cuda β} {o : Op} {r : o.Answer} (h : (Cuda.proper β).answers o d r d') (hb : Below d) : Below d' := by
  obtain ⟨h, hp⟩ := h
  cases o with
  | cu c =>
    cases r with
    | ok v =>
      obtain ⟨-, x, rfl⟩ := h
      refine below_after hb x ?_
      rintro size align rfl
      exact hp
    | error e =>
      obtain rfl : d' = d := h
      exact hb
  | drop c =>
    rcases h with ⟨hv, x, rfl⟩ | ⟨-, rfl⟩
    · refine below_after hb x ?_
      rintro size align rfl
      exact absurd rfl hv.2.1
    · exact hb
  | _ =>
    obtain rfl : d' = d := h
    exact hb

/-- The backend and the driver are a heap: the driver holds exactly its chunks, which are those that the allocator holds. -/
structure Tied (t : Heap) (cs : OrdMap Ptr Chunk) (b : VmemBackend) (d : Cuda β) : Prop where
  inv : Inv ⟨b, cs, d⟩
  below : Below d
  gran : t.gran = b.gran
  movable : t.movable = true
  chunks : t.chunks = d.reservations

/-- Exactly the ranges of the chunks are reserved. -/
theorem reservations_find {cs : OrdMap Ptr Chunk} {b : VmemBackend} {d : Cuda β} (h : Inv ⟨b, cs, d⟩) (va : Ptr) :
    d.reservations[va]? = cs[va]?.map Chunk.size := by
  rw [h.reservations, h.held, Option.map_map]
  rfl

/-- Exactly the chunks are in the heap. -/
theorem Tied.find {t : Heap} {cs : OrdMap Ptr Chunk} {b : VmemBackend} {d : Cuda β} (h : Tied t cs b d) (va : Ptr) :
    t.chunks[va]? = cs[va]?.map Chunk.size := by
  rw [h.chunks, reservations_find h.inv]

/-- The counts of the backend are the bytes of the heap. -/
theorem Tied.used {t : Heap} {cs : OrdMap Ptr Chunk} {b : VmemBackend} {d : Cuda β} (h : Tied t cs b d) : b.usedAll = t.used := by
  have hmap : t.chunks = b.chunks.map fun _ r => r.size := by
    refine Std.ExtTreeMap.ext_getElem? fun va => ?_
    rw [h.chunks, h.inv.reservations, Std.ExtTreeMap.getElem?_map]
  unfold VmemBackend.usedAll Heap.used
  rw [show b.usedDevice = b.used .device from rfl, show b.usedHost = b.used .host from rfl, h.inv.used .device, h.inv.used .host,
    ← OrdMap.total_add, hmap, OrdMap.total_map]
  refine OrdMap.total_congr fun va r _ => ?_
  cases r.loc <;> simp

/-! ## The calls of the backend -/

variable {cs₀ : OrdMap Ptr Chunk} {m₀ : Ptr → Option β} {d d' : Cuda β} {l : Ledger} {t : Heap} {b b' : VmemBackend}

/-- A run with proper answers is a run. -/
theorem runs_world {p : Prog Op Op.Answer α} {a : α} (h : p.Runs (Cuda.proper β) d a d') : p.Runs (Cuda.world β) d a d' :=
  h.mono fun _ _ _ _ h => h.1

/-- Ranges stay below the end of the address space in every proper run. -/
theorem below_runs {p : Prog Op Op.Answer α} {a : α} (h : p.Runs (Cuda.proper β) d a d') (hb : Below d) : Below d' :=
  h.keeps (fun _ _ _ _ h => below_answers h) hb

/-- Calls that are not fatal leave the contents of the chunks that stay. -/
theorem contents_step {cs cs' : OrdMap Ptr Chunk} (h : Inv ⟨b, cs, d⟩) (h' : Inv ⟨b', cs', d'⟩) {i : MemCall} {s : Status}
    (hs : Caller.Step ⟨b, cs, d⟩ i s ⟨b', cs', d'⟩) (hf : s ≠ .fatal) {va : Ptr} {c c' : Chunk} (hc : cs[va]? = some c)
    (hc' : cs'[va]? = some c') : d'.contents va = d.contents va := by
  obtain ⟨r, x, rfl, hl⟩ := h.live hc
  obtain ⟨r', x', rfl, hl'⟩ := h'.live hc'
  exact h.step_contents hs hf hl.recorded hl'.recorded

/-- A call that changes neither the memory nor the driver. -/
theorem Tied.same {cs : OrdMap Ptr Chunk} (h : Tied t cs b d) (hb : b.SameMemory b') (hg : b'.gran = b.gran) : Tied t cs b' d :=
  ⟨h.inv.of_same hb, h.below, h.gran.trans hg.symm, h.movable, h.chunks⟩

/-- The driver's reservation of a chunk. -/
theorem reserved {cs : OrdMap Ptr Chunk} (h : Inv ⟨b, cs, d⟩) {va : Ptr} {c : Chunk} (hc : cs[va]? = some c) :
    d.reservations[va]? = some c.size := by
  rw [reservations_find h, hc]
  rfl

/-- A new chunk, or no change. -/
theorem create_tied (hT : Tied t l.chunks b d) (hS : Since cs₀ m₀ l d.contents) (hshr : l.shrunk = false) {size : Size} {s : Status} {c : Chunk}
    (hr : Prog.Runs (Cuda.proper β) (create size {} b) d ((s, c), b') d') :
    (s ≠ .ok ∧ Tied t l.chunks b' d' ∧ Since cs₀ m₀ l d'.contents) ∨
      (s = .ok ∧ c.size = size ∧ size ≠ 0 ∧ t.Fresh c.ptr size ∧ l.chunks[c.ptr]? = none ∧
        Tied { t with chunks := t.chunks.insert c.ptr size } (l.chunks.insert c.ptr c) b' d' ∧
        Since cs₀ m₀ { l with chunks := l.chunks.insert c.ptr c } d'.contents) := by
  have hg : b'.gran = b.gran := hr.of_wp (granFrame.create size {} b d rfl)
  rcases (runs_world hr).of_wp (create_wp hT.inv.sane) with ⟨hok, nh, hc⟩ | ⟨hne, -, rfl, hb⟩
  · obtain rfl : s = .ok := hok
    have hinv : Inv ⟨b', l.chunks.insert c.ptr c, d'⟩ := hT.inv.created hc
    have hbelow := below_runs hr hT.below
    obtain ⟨align, hv⟩ := hc.reserved
    have hres : d'.reservations = d.reservations.insert c.ptr size := by
      obtain ⟨x, hd⟩ := hc.driver
      rw [hd]
    have hnone : l.chunks[c.ptr]? = none := by
      have hfree := hT.inv.sane.fresh hv
      cases hl : l.chunks[c.ptr]? with
      | none => rfl
      | some c₁ =>
        rw [reserved hT.inv hl] at hfree
        cases hfree
    have hne {va : Ptr} {c₁ : Chunk} (hc₁ : l.chunks[va]? = some c₁) : va ≠ c.ptr := by
      rintro rfl
      rw [hnone] at hc₁
      cases hc₁
    refine .inr ⟨rfl, hc.sized, hv.1, ⟨hv.2.1, hbelow c.ptr size (by simp [hres]), fun q n hn => hv.2.2.2 q n (hT.chunks ▸ hn)⟩, hnone,
      ⟨hinv, hbelow, hT.gran.trans hg.symm, hT.movable, by rw [hT.chunks, hres]⟩, hS.step (fun _ => ⟨hshr, fun va c₁ hc₁ => ?_⟩) ?_⟩
    · exact ⟨c₁, by rw [OrdMap.getElem?_insert, if_neg (hne hc₁), hc₁], rfl⟩
    · intro va c' hc'
      have hmade : Caller.Step ⟨b, l.chunks, d⟩ (.create size) .ok _ := .create (runs_world hr)
      have hstep : Caller.Step ⟨b, l.chunks, d⟩ (.create size) .ok ⟨b', l.chunks.insert c.ptr c, d'⟩ := by simpa using hmade
      by_cases hva : va = c.ptr
      · subst hva
        obtain rfl : c = c' := by simpa using hc'
        refine .inr fun va₀ c₀ hc₀ => ?_
        obtain ⟨c₁, hc₁, hsize⟩ := hS.whole hshr va₀ c₀ hc₀
        rw [hc.sized, ← hsize]
        exact hv.2.2.2 va₀ c₁.size (reserved hT.inv hc₁)
      · have hold : l.chunks[va]? = some c' := by rwa [OrdMap.getElem?_insert, if_neg hva] at hc'
        exact .inl ⟨c', hold, rfl, contents_step hT.inv hinv hstep (by decide) hold hc'⟩
  · exact .inl ⟨hne, hT.same hb hg, hS⟩

/-- A chunk is gone, or that was fatal. -/
theorem destroy_tied (hT : Tied t l.chunks b d) (hS : Since cs₀ m₀ l d.contents) {c c' : Chunk} (hc : l.chunks[c.ptr]? = some c) {s : Status}
    (hr : Prog.Runs (Cuda.proper β) (VmemBackend.destroy c b) d ((s, c'), b') d') :
    (s = .ok ∧ Tied { t with chunks := t.chunks.erase c.ptr } (l.chunks.erase c.ptr) b' d' ∧
      Since cs₀ m₀ { l with chunks := l.chunks.erase c.ptr, shrunk := true } d'.contents) ∨ s = .fatal := by
  have hg : b'.gran = b.gran := hr.of_wp (granFrame.destroy c b d rfl)
  obtain ⟨r, x, hcr, hl⟩ := hT.inv.live hc
  rcases (runs_world hr).of_wp (destroy_wp hl.recorded) with ⟨hok, -, hdes⟩ | hf
  · obtain rfl : s = .ok := hok
    have hgone : Caller.Step ⟨b, l.chunks, d⟩ (.destroy c.ptr) .ok _ := .destroy hc (runs_world hr)
    have hstep : Caller.Step ⟨b, l.chunks, d⟩ (.destroy c.ptr) .ok ⟨b', l.chunks.erase c.ptr, d'⟩ := by simpa using hgone
    have hinv := hT.inv.step hstep (by decide)
    refine .inl ⟨rfl, ⟨hinv, below_runs hr hT.below, hT.gran.trans hg.symm, hT.movable, ?_⟩, hS.step (by simp) fun va c₁ hc₁ => ?_⟩
    · rw [hT.chunks, hdes.driver]
    · have hold : l.chunks[va]? = some c₁ := by
        rw [OrdMap.getElem?_erase] at hc₁
        split at hc₁
        · cases hc₁
        · exact hc₁
      exact .inl ⟨c₁, hold, rfl, contents_step hT.inv hinv hstep (by decide) hold hc₁⟩
  · exact .inr hf

/-- A chunk is somewhere else, or it is where it was. -/
theorem move_tied (hT : Tied t l.chunks b d) (hS : Since cs₀ m₀ l d.contents) {c c' : Chunk} (hc : l.chunks[c.ptr]? = some c)
    {target : Loc} {s : Status} (hr : Prog.Runs (Cuda.proper β) (VmemBackend.move c target b) d ((s, c'), b') d') :
    SameChunk c (s, c') ∧ (s ≠ .fatal → Tied t (l.chunks.insert c.ptr c') b' d' ∧
      Since cs₀ m₀ { l with chunks := l.chunks.insert c.ptr c' } d'.contents) := by
  have hg : b'.gran = b.gran := hr.of_wp (granFrame.move c target b d rfl)
  have hsame : SameChunk c (s, c') := (runs_world hr).of_wp (move_chunk c target b d)
  have hstep : Caller.Step ⟨b, l.chunks, d⟩ (.move c.ptr target) s ⟨b', l.chunks.insert c.ptr c', d'⟩ := .move hc (runs_world hr)
  refine ⟨hsame, fun hf => ?_⟩
  have hinv := hT.inv.step hstep hf
  refine ⟨⟨hinv, below_runs hr hT.below, hT.gran.trans hg.symm, hT.movable, Std.ExtTreeMap.ext_getElem? fun va => ?_⟩,
    hS.step (fun hs => ⟨hs, fun va c₁ hc₁ => ?_⟩) fun va c₁ hc₁ => ?_⟩
  · rw [hT.find, reservations_find hinv, OrdMap.getElem?_insert]
    split
    · subst va
      rw [hc]
      exact congrArg some hsame.2.symm
    · rfl
  · by_cases hva : va = c.ptr
    · subst hva
      obtain rfl : c = c₁ := by simpa [hc] using hc₁
      exact ⟨c', by simp, hsame.2⟩
    · exact ⟨c₁, by rw [OrdMap.getElem?_insert, if_neg hva, hc₁], rfl⟩
  · by_cases hva : va = c.ptr
    · subst hva
      obtain rfl : c' = c₁ := by simpa using hc₁
      exact .inl ⟨c, hc, hsame.2.symm, contents_step hT.inv hinv hstep hf hc hc₁⟩
    · have hold : l.chunks[va]? = some c₁ := by rwa [OrdMap.getElem?_insert, if_neg hva] at hc₁
      exact .inl ⟨c₁, hold, rfl, contents_step hT.inv hinv hstep hf hold hc₁⟩

/-! ## The refinement -/

/-- A run behind the interface is a run of the function. -/
theorem runs_served {x : BackendM α} {W : Prog.World Op Op.Answer (Cuda β)} {ob : Option VmemBackend} {a : α}
    (h : (served x b).Runs W d (a, ob) d') : ∃ b' : VmemBackend, ob = some b' ∧ Prog.Runs W (x b) d (a, b') d' := by
  obtain ⟨⟨a₁, b₁⟩, d₁, hx, hr⟩ := Prog.runs_bind.1 h
  cases hr
  exact ⟨b₁, rfl, hx⟩

variable {invocation : List UInt8}

/-- The code behind a call. -/
theorem stack_served {i : BackendCall} {ob : Option VmemBackend} {p : Prog Op Op.Answer (i.Answer × Option VmemBackend)} {r : i.Answer}
    (hs : VmemBackend.serve invocation ob i = some p) {y : Option VmemBackend × Cuda β}
    (hr : (Cuda.stack β invocation).answers i (ob, d) r y) : p.Runs (Cuda.proper β) d (r, y.1) y.2 := Prog.answers_over hs hr

/-- A call that the backend is not there for changes nothing. -/
theorem stack_unserved {i : BackendCall} {x y : Option VmemBackend × Cuda β} {r : i.Answer}
    (hs : VmemBackend.serve invocation x.1 i = none) (hr : (Cuda.stack β invocation).answers i x r y) : y = x :=
  Prog.answers_unserved hs hr

/-- What holds between two calls. -/
def Joined (t : Heap) (cs : OrdMap Ptr Chunk) (s : Option VmemBackend × Cuda β) : Prop :=
  ∃ b : VmemBackend, s.1 = some b ∧ Tied t cs b s.2

/-- The contents of the chunks. -/
def memory (s : Option VmemBackend × Cuda β) : Ptr → Option β := s.2.contents

/-- For an allocator that keeps to its ledger, the vmem backend over a driver is a heap. -/
theorem stack_refines (invocation : List UInt8) (cs₀ : OrdMap Ptr Chunk) (s₀ : Option VmemBackend × Cuda β) :
    (Cuda.stack β invocation).Refines (Heap.world false) Ledger.world (During memory Joined cs₀ s₀) := by
  rintro i t l ⟨ob, d⟩ ⟨ob', d'⟩ r hR ⟨hsound, hp⟩ hr
  obtain ⟨⟨b, hob, hT⟩, hS⟩ := hR hsound
  obtain rfl : ob = some b := hob
  cases i with
  | make k => exact hp.elim
  | openWith c => exact hp.elim
  | close => exact hp.elim
  | granularity =>
    cases stack_served rfl hr
    exact ⟨t, l, ⟨hT.gran.symm, rfl⟩, rfl, hR⟩
  | canMove =>
    cases stack_served rfl hr
    exact ⟨t, l, ⟨hT.movable.symm, rfl⟩, rfl, hR⟩
  | link =>
    cases stack_served rfl hr
    exact ⟨t, l, rfl, rfl, hR⟩
  | used =>
    cases stack_served rfl hr
    exact ⟨t, l, ⟨hT.used, rfl⟩, rfl, hR⟩
  | usedAt p =>
    cases stack_served rfl hr
    exact ⟨t, l, rfl, rfl, hR⟩
  | reconnect =>
    obtain ⟨b', rfl, hrun⟩ := runs_served (stack_served rfl hr)
    obtain ⟨hb, rfl⟩ := (runs_world hrun).of_wp (quiet_reconnect b d)
    have hg : b'.gran = b.gran := hrun.of_wp (keepsGran_reconnect b _ rfl)
    exact ⟨t, l, rfl, rfl, fun _ => ⟨⟨b', rfl, hT.same hb hg⟩, hS⟩⟩
  | create size =>
    obtain ⟨s, c⟩ := r
    obtain ⟨b', rfl, hrun⟩ := runs_served (stack_served rfl hr)
    rcases create_tied hT hS hp hrun with ⟨hs, hT', hS'⟩ | ⟨rfl, hsize, h0, hfresh, hnone, hT', hS'⟩
    · exact ⟨t, _, .inl ⟨hs, rfl⟩, .inl ⟨hs, rfl⟩, fun _ => ⟨⟨b', rfl, hT'⟩, hS'.whole, hS'.each⟩⟩
    · exact ⟨_, _, .inr ⟨rfl, hsize, .inr ⟨h0, hfresh, rfl⟩⟩, .inr ⟨rfl, .inl hnone, rfl⟩, fun _ => ⟨⟨b', rfl, hT'⟩, hS'⟩⟩
  | destroy c =>
    obtain ⟨s, c'⟩ := r
    obtain ⟨b', rfl, hrun⟩ := runs_served (stack_served rfl hr)
    rcases destroy_tied hT hS hp hrun with ⟨rfl, hT', hS'⟩ | rfl
    · exact ⟨_, _, .inl ⟨rfl, rfl⟩, .inl ⟨rfl, rfl⟩, fun _ => ⟨⟨b', rfl, hT'⟩, hS'⟩⟩
    · exact ⟨t, _, .inr ⟨rfl, rfl, rfl⟩, .inr ⟨rfl, rfl⟩, by simp [During]⟩
  | move c target =>
    obtain ⟨s, c'⟩ := r
    obtain ⟨b', rfl, hrun⟩ := runs_served (stack_served rfl hr)
    obtain ⟨hsame, hkept⟩ := move_tied hT hS hp hrun
    refine ⟨t, _, ⟨hsame.1, hsame.2, rfl⟩, ⟨hsame.1, rfl⟩, fun hb => ?_⟩
    obtain ⟨hT', hS'⟩ := hkept (by simpa using hb)
    exact ⟨⟨b', rfl, hT'⟩, hS'.whole, hS'.each⟩
  | synchronize =>
    cases stack_unserved rfl hr
    refine ⟨t, _, ⟨by simp, rfl⟩, rfl, fun hb => ?_⟩
    split
    · exact ⟨⟨b, rfl, hT⟩, hS⟩
    · rename_i hne
      simp [hne] at hb
  | pastEnd slot =>
    cases stack_unserved rfl hr
    exact ⟨t, l, rfl, rfl, hR⟩
  | backOfEmpty =>
    cases stack_unserved rfl hr
    exact ⟨t, l, rfl, rfl, hR⟩
  | bitCeilOverflow x =>
    cases stack_unserved rfl hr
    exact ⟨t, l, rfl, rfl, hR⟩
  | atFailed => exact r.elim

/-- Writing to memory leaves backend and heap tied. -/
theorem Tied.write {cs : OrdMap Ptr Chunk} (h : Tied t cs b d) (k : Handle) (y : β) : Tied t cs b (d.write k y) :=
  ⟨h.inv.kernel k y, by simpa [Below] using h.below, h.gran, h.movable, by simpa using h.chunks⟩

/-- A new backend over a driver that holds nothing, once it is open. -/
theorem tied_opened {c : BackendConfig} {b' : VmemBackend} {d' : Cuda β}
    (hr : Prog.Runs (Cuda.proper β) (openBackend c invocation {}) {} (.ok, b') d') : ∃ t : Heap, t.chunks = ∅ ∧ Tied t ∅ b' d' := by
  obtain ⟨⟨hb, rfl⟩, hg⟩ := hr.of_wp (openBackend_wp c invocation {} {})
  have hinv : Inv ⟨b', ∅, ({} : Cuda β)⟩ := reached_inv (.start b' hb.chunks fun l => (hb.used l).trans (by cases l <;> rfl))
  exact ⟨Heap.start b'.gran (hg rfl) true, rfl, hinv, fun va s hs => by simp at hs, rfl, rfl, rfl⟩

/-- The vmem backend over a driver is a heap. -/
theorem backs_vmem (invocation : List UInt8) : Backs (Cuda.stack β invocation) .vmem Cuda.Kernel (none, {}) memory Joined where
  opens := by
    rintro c ⟨ob₁, d₁⟩ ⟨ob, d⟩ hm ho
    cases stack_served rfl hm
    obtain ⟨b, rfl, hrun⟩ := runs_served (stack_served rfl ho)
    obtain ⟨t, ht, hT⟩ := tied_opened hrun
    exact ⟨t, ht, b, rfl, hT⟩
  named := by
    rintro t cs s ⟨b, -, hT⟩ base c hc
    obtain ⟨r, x, rfl, -⟩ := hT.inv.live hc
    rfl
  refines := stack_refines invocation
  writes := by
    rintro t cs s s' ⟨k, y, rfl⟩ ⟨b, hb, hT⟩
    exact ⟨b, hb, hT.write k y⟩

/-! ## The end -/

variable {cs : OrdMap Ptr Chunk}

/-- A driver that never fails, and answers every call that is valid. -/
abbrev Faultless (β : Type) : Prog.World Op Op.Answer (Cuda β) := ((Cuda.proper β).filter Op.Succeeds).live

/-- A valid call succeeds on a driver without faults. -/
theorem faultless_cu {c : CuCall} {what : String} {Q : Status × BitVec 64 → VmemBackend → Cuda β → Prop} (hv : d.Valid c 0)
    (hp : Cuda.Proper (.cu c) (.ok 0)) (y : β) (hQ : ∀ v x, d.Valid c v → Q (.ok, v) b (d.after c v x)) :
    Code.wp (Faultless β) (cu c what) Q b d := by
  unfold cu
  rw [Code.wp_bind, ask, Code.wp_call]
  refine ⟨⟨.ok 0, d.after c 0 y, ⟨⟨hv, y, rfl⟩, hp⟩, trivial⟩, fun r d' hr => ?_⟩
  cases r with
  | ok v =>
    obtain ⟨⟨⟨hv, x, rfl⟩, -⟩, -⟩ := hr
    exact hQ v x hv
  | error e => exact hr.2.elim

/-- Closing the link leaves the driver. -/
theorem faultless_disconnect (next : Link) : Code.wp (Faultless β) (disconnectBroker next) (fun _ _ d' => d' = d) b d := by
  unfold disconnectBroker closeFd
  rw [Code.wp_bind, Code.wp_bind, Code.wp_get]
  cases b.fd with
  | none => exact rfl
  | some fd =>
    refine ⟨⟨(), d, ⟨rfl, trivial⟩, trivial⟩, ?_⟩
    rintro _ d' ⟨⟨hd, -⟩, -⟩
    exact hd

/-- A message is sent or lost, and the code goes on. -/
theorem faultless_sendMsg (m : Msg) : Code.wp (Faultless β) (sendMsg m) (fun _ _ _ => True) b d := by
  unfold sendMsg
  rw [Code.wp_bind, Code.wp_get, Code.wp_ite]
  refine ⟨fun _ => trivial, fun _ => ?_⟩
  rw [Code.wp_bind, ask, Code.wp_call]
  refine ⟨⟨none, d, ⟨rfl, trivial⟩, trivial⟩, fun r d' _ => ?_⟩
  cases r with
  | none => trivial
  | some e =>
    rw [Code.wp_bind, Code.wp_modify]
    exact Code.wp_seq (faultless_disconnect .broken) fun _ _ _ _ => trivial

/-- A chunk that is held can be destroyed. -/
theorem faultless_destroy (h : Inv ⟨b, cs, d⟩) {c : Chunk} (hc : cs[c.ptr]? = some c) :
    Code.wp (Faultless β) (VmemBackend.destroy c) (fun r _ _ => r.1 = .ok) b d := by
  obtain ⟨r, x, -, hl⟩ := h.live hc
  have hhandle (d' : Cuda β) : Code.wp (Faultless β) (handleOf c.ptr) (fun k b' d'' => k = r.h ∧ b' = b ∧ d'' = d') b d' := by
    unfold handleOf
    rw [Code.wp_bind, Code.wp_get, hl.recorded]
    exact ⟨rfl, rfl, rfl⟩
  have hcalls : Code.wp (Faultless β) (destroyCalls c.ptr c.size) (fun s _ _ => s = .ok) b d := by
    unfold destroyCalls
    refine Code.wp_bind.2 (faultless_cu ⟨_, hl.mapped, rfl⟩ trivial x fun _ _ _ => ?_)
    rw [if_neg (by simp)]
    refine Code.wp_seq (hhandle _) ?_
    rintro _ _ _ ⟨rfl, rfl, rfl⟩
    refine Code.wp_bind.2 (faultless_cu ⟨_, hl.backed⟩ trivial x fun _ _ _ => ?_)
    rw [if_neg (by simp)]
    refine Code.wp_bind.2 (faultless_cu ⟨reserved h hc, fun va m hm => ?_⟩ trivial x fun _ _ _ => rfl)
    -- the other mappings are those of other chunks
    have hm : (d.mappings.erase c.ptr)[va]? = some m := hm
    rw [OrdMap.getElem?_erase] at hm
    split at hm
    · cases hm
    · rename_i hne
      have hmap := h.mappings va
      rw [hm] at hmap
      obtain ⟨r', hr', rfl⟩ := Option.map_eq_some_iff.1 hmap.symm
      exact h.apart c.ptr va c.size r'.size (reserved h hc) (by rw [h.reservations, hr']; rfl) (Ne.symm hne)
  refine Code.wp_seq hcalls ?_
  rintro _ b' d' rfl
  rw [if_neg (by simp), Code.wp_bind, Code.wp_modify]
  exact Code.wp_seq (faultless_sendMsg _) fun _ _ _ _ => rfl

/-- Where no chunk is held the driver holds nothing. -/
theorem Tied.empty (h : Tied t ∅ b d) : d = {} := by
  have hnone (va : Ptr) : b.chunks[va]? = none := by simpa using (h.inv.held va).symm
  refine Cuda.ext (Std.ExtTreeMap.ext_getElem? fun va => ?_) (Std.ExtTreeMap.ext_getElem? fun k => ?_)
    (Std.ExtTreeMap.ext_getElem? fun va => ?_)
  · rw [h.inv.reservations, hnone]
    simp
  · cases hk : d.handles[k]? with
    | none => simp
    | some p =>
      obtain ⟨va, r, hr, -⟩ := h.inv.owned k p hk
      rw [hnone] at hr
      cases hr
  · rw [h.inv.mappings, hnone]
    simp

/-- A call whose code does no more than what never fails. -/
theorem served_live {i : BackendCall} {x : BackendM i.Answer} {Q : i.Answer → Cuda β → Prop}
    (hs : serve invocation (some b) i = some (served x b)) (h : Code.wp (Faultless β) x (fun r _ d' => Q r d') b d)
    (hi : ∀ r : i.Answer, i.Succeeds r) :
    (∃ r y, (Cuda.faultless β invocation).answers i (some b, d) r y) ∧
      ∀ r y, (Cuda.faultless β invocation).answers i (some b, d) r y → Q r y.2 := by
  obtain ⟨⟨r, y, hr⟩, hall⟩ := Prog.over_live (Q := fun r y => Q r y.2) hs (Prog.wp_bind.2 h)
  exact ⟨⟨r, y, hr, hi r⟩, fun r y hr => hall r y hr.1⟩

end StackAux

end Vmem
