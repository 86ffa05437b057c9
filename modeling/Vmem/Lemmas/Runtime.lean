import Vmem.Lemmas.Ledger
import Vmem.Runtime

/-!
# The runtime's backends are heaps

What a call of either backend comes to (`Outcome`), and that this is a heap for an allocator that keeps to the ledger.
-/

namespace Vmem

namespace RuntimeAux

open RtBackend RtM Code

variable {β σ α : Type} {r r' : Runtime β}

/-! ## What a call comes to -/

/-- What a call of a backend comes to, from the count `u` of its bytes and the runtime `r`; `movable` says whether chunks move. -/
def Outcome (movable : Bool) (u : Size) (r : Runtime β) : (i : BackendCall) → i.Answer → Size → Runtime β → Prop
  | .granularity, a, u', r' => a = granularity ∧ u' = u ∧ r' = r
  | .canMove, a, u', r' => a = movable ∧ u' = u ∧ r' = r
  | .used, a, u', r' => a = u ∧ u' = u ∧ r' = r
  | .create size, a, u', r' => (a.1 ≠ .ok ∧ u' = u ∧ r' = r) ∨ (a.1 = .ok ∧ a.2 = ⟨a.2.ptr, size, .device⟩ ∧ u' = u + size ∧
      ((movable = false ∧ size = 0 ∧ a.2.ptr = 0 ∧ r' = r) ∨ r.Grown a.2.ptr size r'))
  | .destroy c, a, u', r' => a.1 = .fatal ∨ (a.1 = .ok ∧ u' = u - c.size ∧
      ((c.ptr = 0 ∧ r' = r) ∨ ((∃ b, r.blocks[c.ptr]? = some b) ∧ r' = { blocks := r.blocks.erase c.ptr })))
  | .move c _, a, u', r' => a.2.ptr = c.ptr ∧ a.2.size = c.size ∧ (movable = false → a.2 = c) ∧ u' = u ∧ r' = r
  | _, _, u', r' => u' = u ∧ r' = r

variable {used : σ → Size} {write : RtText → σ → σ}

/-- `ok` tells whether a call of the runtime succeeded, and touches only the text of the error. -/
theorem ok_wp (hw : ∀ t b, used (write t b) = used b) (e : Option RtError) (what : String) (b : σ) (r : Runtime β) :
    Code.wp (Runtime.world β) (ok write e what) (fun fine b' r' => (fine = true ↔ e = none) ∧ used b' = used b ∧ r' = r) b r := by
  cases e with
  | none => exact ⟨by simp, rfl, rfl⟩
  | some e => exact ⟨by simp, hw _ b, rfl⟩

/-- The end of `open` frees nothing. -/
theorem initContext_wp (hw : ∀ t b, used (write t b) = used b) (b : σ) (r : Runtime β) (h0 : r.blocks[(0 : Ptr)]? = none) :
    Code.wp (Runtime.world β) (initContext write) (fun _ b' r' => used b' = used b ∧ r' = r) b r := by
  unfold initContext
  rw [Code.wp_bind, ask, Code.wp_call]
  refine ⟨trivial, fun e r' he => ?_⟩
  have hr : r' = r := by
    cases e with
    | some e => exact he
    | none =>
      rcases he with ⟨-, hr⟩ | ⟨⟨b, hb⟩, -⟩
      · exact hr
      · rw [h0] at hb
        cases hb
  subst hr
  refine Code.wp_seq (ok_wp hw e _ b r') ?_
  rintro fine b' _ ⟨-, hb, rfl⟩
  exact ⟨hb, rfl⟩

/-- `destroy` gives a block back once, or fails and changes nothing. -/
theorem destroyChunk_wp (hw : ∀ t b, used (write t b) = used b) {spend : Size → σ → σ} (hs : ∀ n b, used (spend n b) = used b - n) (m : Bool)
    (c : Chunk) (b : σ) (r : Runtime β) :
    Code.wp (Runtime.world β) (destroyChunk write spend c) (fun a b' r' => Outcome m (used b) r (.destroy c) a (used b') r') b r := by
  unfold destroyChunk
  rw [Code.wp_bind, ask, Code.wp_call]
  refine ⟨trivial, fun e r' he => Code.wp_seq (ok_wp hw e _ b r') ?_⟩
  rintro fine b' r'' ⟨hfine, hb, rfl⟩
  rw [Code.wp_ite]
  refine ⟨fun _ => .inl rfl, fun hf => ?_⟩
  obtain rfl : e = none := hfine.1 (by simpa using hf)
  exact .inr ⟨rfl, by rw [hs, hb], he⟩

/-! ## backends/uvm.h -/

/-- `fail` turns an error into a status, and touches only the text. -/
theorem fail_wp (e : Option RtError) (what : String) (b : UvmBackend) (r : Runtime β) :
    Code.wp (Runtime.world β) (UvmBackend.fail e what) (fun s b' r' => (s = .ok ↔ e = none) ∧ b'.used = b.used ∧ r' = r) b r := by
  unfold UvmBackend.fail
  refine Code.wp_seq (ok_wp UvmBackend.used_write e what b r) ?_
  rintro fine b' r' ⟨hfine, hb, rfl⟩
  rw [Code.wp_ite]
  refine ⟨fun h => ⟨by simp [hfine.1 h], hb, rfl⟩, fun h => ?_⟩
  have he : e ≠ none := fun he => h (hfine.2 he)
  rw [Code.wp_ite]
  refine ⟨fun _ => ⟨by simp [he], hb, rfl⟩, fun _ => ⟨trivial, ?_⟩⟩
  rintro _ r'' rfl
  exact ⟨by simp [he], hb, rfl⟩

/-- `create` on managed memory takes a fresh block, or fails. -/
theorem uvm_create (size : Size) (b : UvmBackend) (r : Runtime β) :
    Code.wp (Runtime.world β) (UvmBackend.create size {}) (fun a b' r' => Outcome true b.used r (.create size) a b'.used r') b r := by
  unfold UvmBackend.create
  rw [Code.wp_bind, ask, Code.wp_call]
  refine ⟨trivial, fun p r' hp => Code.wp_seq (fail_wp _ _ b r') ?_⟩
  rintro s b' r'' ⟨hs, hb, rfl⟩
  cases p with
  | error e =>
    obtain rfl : r'' = r := hp
    exact .inl ⟨fun hok => absurd (hs.1 hok) (by simp [errorOf]), hb, rfl⟩
  | ok p => exact .inr ⟨rfl, rfl, congrArg (· + size) hb, .inr hp⟩

/-- `move` on managed memory is a hint. -/
theorem uvm_move (c : Chunk) (target : Loc) (b : UvmBackend) (r : Runtime β) :
    Code.wp (Runtime.world β) (UvmBackend.move c target) (fun a b' r' => Outcome true b.used r (.move c target) a b'.used r') b r := by
  unfold UvmBackend.move
  rw [Code.wp_ite]
  refine ⟨fun _ => ⟨rfl, rfl, by simp, rfl, rfl⟩, fun _ => ?_⟩
  rw [Code.wp_bind, Code.wp_get, Code.wp_bind, ask, Code.wp_call]
  refine ⟨trivial, ?_⟩
  intro e r' hr
  have hr : r' = r := by cases e <;> exact hr
  subst hr
  refine Code.wp_seq (fail_wp e _ b r') ?_
  rintro s b' r₁ ⟨-, hb, rfl⟩
  have hsync : Code.wp (Runtime.world β) (if s = .ok then do
      let e : Option RtError ← ask .streamSynchronize
      UvmBackend.fail e "prefetch sync"
    else pure s) (fun _ b'' r'' => b''.used = b.used ∧ r'' = r₁) b' r₁ := by
    rw [Code.wp_ite]
    refine ⟨fun _ => ?_, fun _ => ⟨hb, rfl⟩⟩
    rw [Code.wp_bind, ask, Code.wp_call]
    refine ⟨trivial, fun e r'' hr => ?_⟩
    have hr : r'' = r₁ := by cases e <;> exact hr
    subst hr
    refine Code.wp_mono (fail_wp e _ b' r'') ?_
    rintro s b'' _ ⟨-, hb', rfl⟩
    exact ⟨hb'.trans hb, rfl⟩
  refine Code.wp_seq hsync ?_
  rintro s b'' _ ⟨hb'', rfl⟩
  refine ⟨?_, ?_, by simp, hb'', rfl⟩
  · show (if s = .ok then { c with loc := target } else c).ptr = c.ptr
    split <;> rfl
  · show (if s = .ok then { c with loc := target } else c).size = c.size
    split <;> rfl

/-- `open` for managed memory takes nothing. -/
theorem uvm_openBackend (c : BackendConfig) (b : UvmBackend) (r : Runtime β) (h0 : r.blocks[(0 : Ptr)]? = none) :
    Code.wp (Runtime.world β) (UvmBackend.openBackend c) (fun _ b' r' => b'.used = b.used ∧ r' = r) b r := by
  unfold UvmBackend.openBackend
  rw [Code.wp_bind, Code.wp_modify, Code.wp_bind, ask, Code.wp_call]
  refine ⟨trivial, fun e r' hr => ?_⟩
  have hr : r' = r := by cases e <;> exact hr
  subst hr
  refine Code.wp_seq (ok_wp UvmBackend.used_write e _ _ r') ?_
  rintro fine b₁ r₁ ⟨-, hb₁, rfl⟩
  rw [Code.wp_ite]
  refine ⟨fun _ => ⟨hb₁, rfl⟩, fun _ => ?_⟩
  rw [Code.wp_bind, ask, Code.wp_call]
  refine ⟨trivial, fun m r'' hr => ?_⟩
  have hr : r'' = r₁ := by cases m <;> exact hr
  subst hr
  refine Code.wp_seq (ok_wp UvmBackend.used_write _ _ b₁ r'') ?_
  rintro fine b₂ _ ⟨-, hb₂, rfl⟩
  rw [Code.wp_ite]
  refine ⟨fun _ => ⟨hb₂.trans hb₁, rfl⟩, fun _ => ?_⟩
  rw [Code.wp_ite]
  refine ⟨fun _ => ⟨hb₂.trans hb₁, rfl⟩, fun _ => Code.wp_mono (initContext_wp UvmBackend.used_write b₂ _ h0) ?_⟩
  rintro s b₃ _ ⟨hb₃, rfl⟩
  exact ⟨hb₃.trans (hb₂.trans hb₁), rfl⟩

/-! ## backends/cuda.h -/

/-- `create` on device memory takes a fresh block, or fails. -/
theorem cuda_create (size : Size) (b : CudaBackend) (r : Runtime β) :
    Code.wp (Runtime.world β) (CudaBackend.create size {}) (fun a b' r' => Outcome false b.used r (.create size) a b'.used r') b r := by
  unfold CudaBackend.create
  rw [Code.wp_bind, ask, Code.wp_call]
  refine ⟨trivial, fun p r' hp => ?_⟩
  rw [Code.wp_ite]
  refine ⟨fun hmem => ⟨trivial, ?_⟩, fun _ => Code.wp_seq (ok_wp CudaBackend.used_write _ _ b r') ?_⟩
  · rintro _ r'' rfl
    cases p with
    | ok p => cases hmem
    | error e =>
      obtain rfl : r'' = r := hp
      exact .inl ⟨by simp, rfl, rfl⟩
  · rintro fine b' r'' ⟨-, hb, rfl⟩
    cases p with
    | error e =>
      obtain rfl : r'' = r := hp
      exact .inl ⟨by simp, hb, rfl⟩
    | ok p =>
      refine .inr ⟨rfl, rfl, congrArg (· + size) hb, ?_⟩
      rcases hp with ⟨h0, hp, hr⟩ | hgrown
      · exact .inl ⟨rfl, h0, hp, hr⟩
      · exact .inr hgrown

/-- `open` for device memory takes nothing. -/
theorem cuda_openBackend (c : BackendConfig) (b : CudaBackend) (r : Runtime β) (h0 : r.blocks[(0 : Ptr)]? = none) :
    Code.wp (Runtime.world β) (CudaBackend.openBackend c) (fun _ b' r' => b'.used = b.used ∧ r' = r) b r := by
  unfold CudaBackend.openBackend
  rw [Code.wp_bind, ask, Code.wp_call]
  refine ⟨trivial, fun e r' hr => ?_⟩
  have hr : r' = r := by cases e <;> exact hr
  subst hr
  refine Code.wp_seq (ok_wp CudaBackend.used_write e _ b r') ?_
  rintro fine b₁ _ ⟨-, hb₁, rfl⟩
  rw [Code.wp_ite]
  refine ⟨fun _ => ⟨hb₁, rfl⟩, fun _ => Code.wp_mono (initContext_wp CudaBackend.used_write b₁ _ h0) ?_⟩
  rintro s b₂ _ ⟨hb₂, rfl⟩
  exact ⟨hb₂.trans hb₁, rfl⟩

/-! ## Behind the interface -/

/-- Whether the chunks of a backend move. -/
def movable : RtBackend → Bool
  | .uvm _ => true
  | .cuda _ => false

/-- A call of the interface is a run of its function. -/
theorem rt_served {i : BackendCall} {ob : Option RtBackend} {p : Prog RtCall RtCall.Answer (i.Answer × Option RtBackend)} {a : i.Answer}
    (hs : serve ob i = some p) {y : Option RtBackend × Runtime β} (h : (Runtime.stack β).answers i (ob, r) a y) :
    p.Runs (Runtime.world β) r (a, y.1) y.2 := Prog.answers_over hs h

/-- A call that the backend is not there for changes nothing. -/
theorem rt_unserved {i : BackendCall} {x y : Option RtBackend × Runtime β} {a : i.Answer} (hs : serve x.1 i = none)
    (h : (Runtime.stack β).answers i x a y) : y = x := Prog.answers_unserved hs h

/-- A run behind the interface ends in the same backend. -/
theorem runs_wrapped {wrap : σ → RtBackend} {x : RtM σ α} {b : σ} {a : α} {ob : Option RtBackend} {Q : α → σ → Runtime β → Prop}
    (h : (served wrap x b).Runs (Runtime.world β) r (a, ob) r') (hx : Code.wp (Runtime.world β) x Q b r) :
    ∃ b' : σ, ob = some (wrap b') ∧ Q a b' r' := by
  obtain ⟨⟨a₁, b₁⟩, r₁, hrun, hr⟩ := Prog.runs_bind.1 h
  cases hr
  exact ⟨b₁, rfl, hrun.of_wp hx⟩

/-- A call that the ledger permits comes to one of its outcomes. -/
theorem outcome {l : Ledger} {i : BackendCall} (hp : l.permits i) {b : RtBackend} {a : i.Answer} {y : Option RtBackend × Runtime β}
    (h : (Runtime.stack β).answers i (some b, r) a y) :
    ∃ b' : RtBackend, y.1 = some b' ∧ movable b' = movable b ∧ Outcome (movable b) b.used r i a b'.used y.2 := by
  obtain ⟨ob, r'⟩ := y
  have hserved {p : Prog RtCall RtCall.Answer (i.Answer × Option RtBackend)} (hs : serve (some b) i = some p) := rt_served hs h
  cases i with
  | make k => exact hp.2.elim
  | openWith c => exact hp.2.elim
  | close => exact hp.2.elim
  | granularity =>
    cases b <;> cases hserved rfl <;> exact ⟨_, rfl, rfl, rfl, rfl, rfl⟩
  | canMove =>
    cases b <;> cases hserved rfl <;> exact ⟨_, rfl, rfl, rfl, rfl, rfl⟩
  | used =>
    cases b <;> cases hserved rfl <;> exact ⟨_, rfl, rfl, rfl, rfl, rfl⟩
  | usedAt p =>
    cases b <;> cases hserved rfl <;> exact ⟨_, rfl, rfl, rfl, rfl⟩
  | link =>
    cases b <;> cases hserved rfl <;> exact ⟨_, rfl, rfl, rfl, rfl⟩
  | reconnect =>
    cases b <;> cases hserved rfl <;> exact ⟨_, rfl, rfl, rfl, rfl⟩
  | create size =>
    cases b with
    | uvm b =>
      obtain ⟨b', hob, ho⟩ := runs_wrapped (hserved rfl) (uvm_create size b r)
      exact ⟨_, hob, rfl, ho⟩
    | cuda b =>
      obtain ⟨b', hob, ho⟩ := runs_wrapped (hserved rfl) (cuda_create size b r)
      exact ⟨_, hob, rfl, ho⟩
  | destroy c =>
    cases b with
    | uvm b =>
      obtain ⟨b', hob, ho⟩ := runs_wrapped (hserved rfl) (destroyChunk_wp UvmBackend.used_write (fun _ _ => rfl) true c b r)
      exact ⟨_, hob, rfl, ho⟩
    | cuda b =>
      obtain ⟨b', hob, ho⟩ := runs_wrapped (hserved rfl) (destroyChunk_wp CudaBackend.used_write (fun _ _ => rfl) false c b r)
      exact ⟨_, hob, rfl, ho⟩
  | move c target =>
    cases b with
    | uvm b =>
      obtain ⟨b', hob, ho⟩ := runs_wrapped (hserved rfl) (uvm_move c target b r)
      exact ⟨_, hob, rfl, ho⟩
    | cuda b =>
      cases hserved rfl
      exact ⟨_, rfl, rfl, rfl, rfl, fun _ => rfl, rfl, rfl⟩
  | synchronize =>
    cases b <;> cases rt_unserved rfl h <;> exact ⟨_, rfl, rfl, rfl, rfl⟩
  | pastEnd slot =>
    cases b <;> cases rt_unserved rfl h <;> exact ⟨_, rfl, rfl, rfl, rfl⟩
  | backOfEmpty =>
    cases b <;> cases rt_unserved rfl h <;> exact ⟨_, rfl, rfl, rfl, rfl⟩
  | bitCeilOverflow x =>
    cases b <;> cases rt_unserved rfl h <;> exact ⟨_, rfl, rfl, rfl, rfl⟩
  | atFailed => exact a.elim

/-! ## The heap -/

/-- The allocations are the chunks of the heap, and those that the allocator holds; of no bytes it may hold the null chunk, which does not
move. -/
structure Stored (m : Bool) (t : Heap) (cs : OrdMap Ptr Chunk) (u : Size) (r : Runtime β) : Prop where
  gran : t.gran = granularity
  movable : t.movable = m
  blocks : ∀ p : Ptr, t.chunks[p]? = r.blocks[p]?.map Block.size
  zero : r.blocks[(0 : Ptr)]? = none
  sized : ∀ (p : Ptr) (b : Block β), r.blocks[p]? = some b → b.size ≠ 0
  held : ∀ p : Ptr, p ≠ 0 → cs[p]?.map Chunk.size = t.chunks[p]?
  null : ∀ c : Chunk, cs[(0 : Ptr)]? = some c → m = false ∧ c = {}
  named : ∀ (p : Ptr) (c : Chunk), cs[p]? = some c → c.ptr = p
  used : u = t.used

variable {m : Bool} {t : Heap} {u u' : Size} {l : Ledger} {cs₀ : OrdMap Ptr Chunk} {m₀ : Ptr → Option β}

/-- Allocations of the same sizes. -/
theorem Stored.congr {cs : OrdMap Ptr Chunk} (h : Stored m t cs u r) (hr : ∀ p : Ptr, r'.blocks[p]?.map Block.size = r.blocks[p]?.map Block.size) :
    Stored m t cs u r' := by
  refine ⟨h.gran, h.movable, fun p => (h.blocks p).trans (hr p).symm, ?_, fun p b hb => ?_, h.held, h.null, h.named, h.used⟩
  · have h0 := hr 0
    rw [h.zero] at h0
    exact Option.map_eq_none_iff.1 h0
  · have hp := hr p
    rw [hb] at hp
    obtain ⟨b₀, hb₀, hsize⟩ := Option.map_eq_some_iff.1 hp.symm
    exact hsize ▸ h.sized p b₀ hb₀

/-- Writing to memory changes no size. -/
theorem sizes_write (r : Runtime β) (p : Ptr) (x : β) (q : Ptr) : (r.write p x).blocks[q]?.map Block.size = r.blocks[q]?.map Block.size := by
  unfold Runtime.write
  cases hp : r.blocks[p]? with
  | none => rfl
  | some b =>
    rw [OrdMap.getElem?_insert]
    split
    · subst q
      rw [hp]
      rfl
    · rfl

/-- The allocation of a chunk that is not null. -/
theorem Stored.find {cs : OrdMap Ptr Chunk} (h : Stored m t cs u r) {p : Ptr} (hp : p ≠ 0) {c : Chunk} (hc : cs[p]? = some c) :
    ∃ b : Block β, r.blocks[p]? = some b ∧ b.size = c.size := by
  have hheld := h.held p hp
  rw [hc, h.blocks] at hheld
  obtain ⟨b, hb, hsize⟩ := Option.map_eq_some_iff.1 hheld.symm
  exact ⟨b, hb, hsize⟩

/-- A chunk at a new allocation. -/
theorem Stored.grown (h : Stored m t l.chunks u r) (hS : Since cs₀ m₀ l r.contents) (hshr : l.shrunk = false) {c : Chunk}
    (hg : r.Grown c.ptr c.size r') :
    t.Fresh c.ptr c.size ∧ l.chunks[c.ptr]? = none ∧
      Stored m { t with chunks := t.chunks.insert c.ptr c.size } (l.chunks.insert c.ptr c) (u + c.size) r' ∧
      Since cs₀ m₀ { l with chunks := l.chunks.insert c.ptr c } r'.contents := by
  obtain ⟨h0, ⟨hp, hend, hap⟩, x, rfl⟩ := hg
  have hfree : r.blocks[c.ptr]? = none := by
    cases hb : r.blocks[c.ptr]? with
    | none => rfl
    | some b =>
      exfalso
      have hpos := Nat.pos_of_ne_zero fun hz => h0 (BitVec.eq_of_toNat_eq hz)
      have hpos' := Nat.pos_of_ne_zero fun hz => h.sized _ _ hb (BitVec.eq_of_toNat_eq hz)
      rcases hap _ _ hb with hle | hle <;> omega
  have hnone : l.chunks[c.ptr]? = none := by
    cases hl : l.chunks[c.ptr]? with
    | none => rfl
    | some c₁ =>
      obtain ⟨b, hb, -⟩ := h.find hp hl
      rw [hfree] at hb
      cases hb
  have hne {va : Ptr} {c₁ : Chunk} (hc₁ : l.chunks[va]? = some c₁) : va ≠ c.ptr := by
    rintro rfl
    rw [hnone] at hc₁
    cases hc₁
  refine ⟨⟨hp, hend, fun q n hn => ?_⟩, hnone, ⟨h.gran, h.movable, fun q => ?_, ?_, fun q b hb => ?_, fun q hq => ?_, fun c₁ hc₁ => ?_,
    fun q c₁ hc₁ => ?_, ?_⟩, hS.step (fun _ => ⟨hshr, fun va c₁ hc₁ => ?_⟩) fun va c₁ hc₁ => ?_⟩
  · rw [h.blocks] at hn
    obtain ⟨b, hb, rfl⟩ := Option.map_eq_some_iff.1 hn
    exact hap q b hb
  · simp only [OrdMap.getElem?_insert]
    split
    · rfl
    · exact h.blocks q
  · simp only [OrdMap.getElem?_insert, if_neg (Ne.symm hp), h.zero]
  · simp only [OrdMap.getElem?_insert] at hb
    split at hb
    · cases hb
      exact h0
    · exact h.sized q b hb
  · simp only [OrdMap.getElem?_insert]
    split
    · rfl
    · exact h.held q hq
  · rw [OrdMap.getElem?_insert, if_neg (Ne.symm hp)] at hc₁
    exact h.null c₁ hc₁
  · rw [OrdMap.getElem?_insert] at hc₁
    split at hc₁
    · cases hc₁
      exact (‹q = c.ptr›).symm
    · exact h.named q c₁ hc₁
  · have hchunk : t.chunks[c.ptr]? = none := by rw [h.blocks, hfree]; rfl
    rw [h.used, Heap.used, Heap.used, OrdMap.total_insert_new hchunk, add_comm]
  · exact ⟨c₁, by rw [OrdMap.getElem?_insert, if_neg (hne hc₁), hc₁], rfl⟩
  · by_cases hva : va = c.ptr
    · subst hva
      obtain rfl : c = c₁ := by simpa using hc₁
      refine .inr fun va₀ c₀ hc₀ => ?_
      obtain ⟨c₁, hc₁, hsize⟩ := hS.whole hshr va₀ c₀ hc₀
      rw [← hsize]
      by_cases hz : va₀ = 0
      · subst hz
        obtain ⟨-, rfl⟩ := h.null c₁ hc₁
        exact .inr (by simp)
      · obtain ⟨b, hb, hb'⟩ := h.find hz hc₁
        exact hb' ▸ hap va₀ b hb
    · have hold : l.chunks[va]? = some c₁ := by rwa [OrdMap.getElem?_insert, if_neg hva] at hc₁
      refine .inl ⟨c₁, hold, rfl, ?_⟩
      simp only [Runtime.contents, OrdMap.getElem?_insert, if_neg hva]

/-- A chunk that is gone. -/
theorem Stored.freed (h : Stored m t l.chunks u r) (hS : Since cs₀ m₀ l r.contents) {c : Chunk} (hc : l.chunks[c.ptr]? = some c)
    (hr : (c.ptr = 0 ∧ r' = r) ∨ ((∃ b, r.blocks[c.ptr]? = some b) ∧ r' = { blocks := r.blocks.erase c.ptr })) :
    Stored m { t with chunks := t.chunks.erase c.ptr } (l.chunks.erase c.ptr) (u - c.size) r' ∧
      Since cs₀ m₀ { l with chunks := l.chunks.erase c.ptr, shrunk := true } r'.contents := by
  have herase : r' = { blocks := r.blocks.erase c.ptr } := by
    rcases hr with ⟨hp, rfl⟩ | ⟨-, rfl⟩
    · rw [hp, OrdMap.erase_of_getElem? h.zero]
    · rfl
  have hused : u - c.size = Heap.used { t with chunks := t.chunks.erase c.ptr } := by
    rw [h.used, Heap.used, Heap.used]
    by_cases hp : c.ptr = 0
    · have hnone : t.chunks[c.ptr]? = none := by rw [h.blocks, hp, h.zero]; rfl
      rw [OrdMap.erase_of_getElem? hnone]
      rw [hp] at hc
      rw [(h.null c hc).2]
      simp
    · obtain ⟨b, hb, hsize⟩ := h.find hp hc
      have hchunk : t.chunks[c.ptr]? = some c.size := by rw [h.blocks, hb, ← hsize]; rfl
      rw [OrdMap.total_of_getElem? hchunk]
      exact add_sub_cancel_left _ _
  subst herase
  refine ⟨⟨h.gran, h.movable, fun q => ?_, ?_, fun q b hb => ?_, fun q hq => ?_, fun c₁ hc₁ => ?_, fun q c₁ hc₁ => ?_, hused⟩,
    hS.step (by simp) fun va c₁ hc₁ => ?_⟩
  · simp only [OrdMap.getElem?_erase]
    split
    · rfl
    · exact h.blocks q
  · simp only [OrdMap.getElem?_erase, h.zero, ite_self]
  · simp only [OrdMap.getElem?_erase] at hb
    split at hb
    · cases hb
    · exact h.sized q b hb
  · simp only [OrdMap.getElem?_erase]
    split
    · rfl
    · exact h.held q hq
  · rw [OrdMap.getElem?_erase] at hc₁
    split at hc₁
    · cases hc₁
    · exact h.null c₁ hc₁
  · rw [OrdMap.getElem?_erase] at hc₁
    split at hc₁
    · cases hc₁
    · exact h.named q c₁ hc₁
  · rw [OrdMap.getElem?_erase] at hc₁
    split at hc₁
    · cases hc₁
    · rename_i hva
      refine .inl ⟨c₁, hc₁, rfl, ?_⟩
      simp only [Runtime.contents, OrdMap.getElem?_erase, if_neg hva]

/-- A chunk is written that has the address and the size of one. -/
theorem Stored.replaced (h : Stored m t l.chunks u r) (hS : Since cs₀ m₀ l r.contents) {c c' : Chunk} (hc : l.chunks[c.ptr]? = some c)
    (hptr : c'.ptr = c.ptr) (hsize : c'.size = c.size) (hm : m = false → c' = c) :
    Stored m t (l.chunks.insert c.ptr c') u r ∧ Since cs₀ m₀ { l with chunks := l.chunks.insert c.ptr c' } r.contents := by
  refine ⟨⟨h.gran, h.movable, h.blocks, h.zero, h.sized, fun q hq => ?_, fun c₁ hc₁ => ?_, fun q c₁ hc₁ => ?_, h.used⟩,
    hS.step (fun hs => ⟨hs, fun va c₁ hc₁ => ?_⟩) fun va c₁ hc₁ => ?_⟩
  · rw [OrdMap.getElem?_insert]
    split
    · subst q
      rw [← h.held _ hq, hc]
      exact congrArg some hsize
    · exact h.held q hq
  · rw [OrdMap.getElem?_insert] at hc₁
    split at hc₁
    · rename_i hp
      cases hc₁
      rw [← hp] at hc
      obtain ⟨hm', rfl⟩ := h.null c hc
      exact ⟨hm', hm hm'⟩
    · exact h.null c₁ hc₁
  · rw [OrdMap.getElem?_insert] at hc₁
    split at hc₁
    · subst q
      cases hc₁
      exact hptr
    · exact h.named q c₁ hc₁
  · by_cases hva : va = c.ptr
    · subst hva
      obtain rfl : c = c₁ := by simpa [hc] using hc₁
      exact ⟨c', by simp, hsize⟩
    · exact ⟨c₁, by rw [OrdMap.getElem?_insert, if_neg hva, hc₁], rfl⟩
  · by_cases hva : va = c.ptr
    · subst hva
      obtain rfl : c' = c₁ := by simpa using hc₁
      exact .inl ⟨c, hc, hsize.symm, rfl⟩
    · exact .inl ⟨c₁, by rwa [OrdMap.getElem?_insert, if_neg hva] at hc₁, rfl, rfl⟩

/-- The null chunk, new or again. -/
theorem Stored.nothing (h : Stored m t l.chunks u r) (hS : Since cs₀ m₀ l r.contents) (hshr : l.shrunk = false) (hm : m = false) :
    (l.chunks[(0 : Ptr)]? = none ∨ l.chunks[(0 : Ptr)]? = some {}) ∧ Stored m t (l.chunks.insert 0 {}) u r ∧
      Since cs₀ m₀ { l with chunks := l.chunks.insert 0 {} } r.contents := by
  have hold : l.chunks[(0 : Ptr)]? = none ∨ l.chunks[(0 : Ptr)]? = some {} := by
    cases hl : l.chunks[(0 : Ptr)]? with
    | none => exact .inl rfl
    | some c => exact .inr (congrArg some (h.null c hl).2)
  refine ⟨hold, ⟨h.gran, h.movable, h.blocks, h.zero, h.sized, fun q hq => ?_, fun c₁ hc₁ => ?_, fun q c₁ hc₁ => ?_, h.used⟩,
    hS.step (fun _ => ⟨hshr, fun va c₁ hc₁ => ?_⟩) fun va c₁ hc₁ => ?_⟩
  · rw [OrdMap.getElem?_insert, if_neg hq]
    exact h.held q hq
  · obtain rfl : ({} : Chunk) = c₁ := by simpa using hc₁
    exact ⟨hm, rfl⟩
  · rw [OrdMap.getElem?_insert] at hc₁
    split at hc₁
    · subst q
      cases hc₁
      rfl
    · exact h.named q c₁ hc₁
  · by_cases hva : va = 0
    · subst hva
      rw [(h.null c₁ hc₁).2]
      exact ⟨{}, by simp, rfl⟩
    · exact ⟨c₁, by rw [OrdMap.getElem?_insert, if_neg hva, hc₁], rfl⟩
  · by_cases hva : va = 0
    · subst hva
      obtain rfl : ({} : Chunk) = c₁ := by simpa using hc₁
      exact .inr fun va₀ c₀ _ => .inl (by simp)
    · exact .inl ⟨c₁, by rwa [OrdMap.getElem?_insert, if_neg hva] at hc₁, rfl, rfl⟩

/-- What holds between two calls. -/
def Joined (m : Bool) (t : Heap) (cs : OrdMap Ptr Chunk) (s : Option RtBackend × Runtime β) : Prop :=
  ∃ b : RtBackend, s.1 = some b ∧ movable b = m ∧ Stored m t cs b.used s.2

/-- The contents of the chunks. -/
def memory (s : Option RtBackend × Runtime β) : Ptr → Option β := s.2.contents

/-- Each outcome is one of the heap and of the ledger. -/
theorem stored_outcome {i : BackendCall} {a : i.Answer} (h : Stored m t l.chunks u r) (hS : Since cs₀ m₀ l r.contents) (hp : l.permits i)
    (ho : Outcome m u r i a u' r') :
    ∃ (t' : Heap) (l' : Ledger), (Heap.world false).answers i t a t' ∧ Ledger.world.answers i l a l' ∧
      (l'.broken = false → Stored m t' l'.chunks u' r' ∧ Since cs₀ m₀ l' r'.contents) := by
  obtain ⟨hsound, hp⟩ := hp
  cases i with
  | make k => exact hp.elim
  | openWith c => exact hp.elim
  | close => exact hp.elim
  | granularity =>
    obtain ⟨rfl, rfl, rfl⟩ := ho
    exact ⟨t, l, ⟨h.gran.symm, rfl⟩, rfl, fun _ => ⟨h, hS⟩⟩
  | canMove =>
    obtain ⟨rfl, rfl, rfl⟩ := ho
    exact ⟨t, l, ⟨h.movable.symm, rfl⟩, rfl, fun _ => ⟨h, hS⟩⟩
  | used =>
    obtain ⟨rfl, rfl, rfl⟩ := ho
    exact ⟨t, l, ⟨h.used, rfl⟩, rfl, fun _ => ⟨h, hS⟩⟩
  | create size =>
    obtain ⟨s, c⟩ := a
    rcases ho with ⟨hs, rfl, rfl⟩ | ⟨hs, hc, rfl, ⟨rfl, rfl, hptr, rfl⟩ | hgrown⟩
    · exact ⟨t, _, .inl ⟨hs, rfl⟩, .inl ⟨hs, rfl⟩, fun _ => ⟨h, hS.whole, hS.each⟩⟩
    · obtain rfl : s = .ok := hs
      obtain rfl : c = {} := by
        rw [show c = ⟨c.ptr, 0, .device⟩ from hc, show c.ptr = 0 from hptr]
      obtain ⟨hold, h', hS'⟩ := h.nothing hS hp rfl
      exact ⟨t, _, .inr ⟨rfl, rfl, .inl ⟨rfl, rfl, rfl⟩⟩, .inr ⟨rfl, hold, rfl⟩, fun _ => ⟨by simpa using h', hS'⟩⟩
    · obtain rfl : s = .ok := hs
      obtain rfl : size = c.size := congrArg Chunk.size (show c = ⟨c.ptr, size, .device⟩ from hc).symm
      obtain ⟨hfresh, hnone, h', hS'⟩ := h.grown hS hp hgrown
      exact ⟨_, _, .inr ⟨rfl, rfl, .inr ⟨hgrown.1, hfresh, rfl⟩⟩, .inr ⟨rfl, .inl hnone, rfl⟩, fun _ => ⟨h', hS'⟩⟩
  | destroy c =>
    obtain ⟨s, c'⟩ := a
    rcases ho with hs | ⟨hs, rfl, hr⟩
    · obtain rfl : s = .fatal := hs
      exact ⟨t, _, .inr ⟨rfl, rfl, rfl⟩, .inr ⟨rfl, rfl⟩, by simp⟩
    · obtain rfl : s = .ok := hs
      exact ⟨_, _, .inl ⟨rfl, rfl⟩, .inl ⟨rfl, rfl⟩, fun _ => h.freed hS hp hr⟩
  | move c target =>
    obtain ⟨s, c'⟩ := a
    obtain ⟨hptr, hsize, hm, rfl, rfl⟩ := ho
    obtain ⟨h', hS'⟩ := h.replaced hS hp hptr hsize hm
    exact ⟨t, _, ⟨hptr, hsize, rfl⟩, ⟨hptr, rfl⟩, fun _ => ⟨h', hS'.whole, hS'.each⟩⟩
  | synchronize =>
    obtain ⟨rfl, rfl⟩ := ho
    refine ⟨t, _, ⟨by simp, rfl⟩, rfl, fun hb => ?_⟩
    split
    · exact ⟨h, hS⟩
    · rename_i hne
      simp [hne] at hb
  | atFailed => exact a.elim
  | _ =>
    obtain ⟨rfl, rfl⟩ := ho
    exact ⟨t, l, rfl, rfl, fun _ => ⟨h, hS⟩⟩

/-- The kind whose chunks move. -/
def Moves (k : Kind) : Bool := decide (k = .uvm)

/-- For an allocator that keeps to its ledger, either backend over the runtime is a heap. -/
theorem backs_runtime {k : Kind} (hk : k ≠ .vmem) : Backs (Runtime.stack β) k Runtime.Kernel (none, {}) memory (Joined (Moves k)) where
  opens := by
    rintro c ⟨ob₁, r₁⟩ ⟨ob, r⟩ hm ho
    have hempty : ({} : Runtime β).blocks[(0 : Ptr)]? = none := by simp
    have hopened {b : RtBackend} (hb : movable b = Moves k) (hu : b.used = 0) :
        ∃ t : Heap, t.chunks = ∅ ∧ Joined (Moves k) t ∅ (some b, ({} : Runtime β)) := by
      refine ⟨Heap.start granularity (by decide) (Moves k), rfl, b, rfl, hb, rfl, rfl, fun p => by simp [Heap.start], hempty, ?_, ?_, ?_, ?_, ?_⟩
      · exact fun p b hb => by simp at hb
      · exact fun p _ => by simp [Heap.start]
      · exact fun c hc => by simp at hc
      · exact fun p c hc => by simp at hc
      · simpa [Heap.start, Heap.used] using hu
    cases k with
    | vmem => exact absurd rfl hk
    | uvm =>
      cases rt_served rfl hm
      obtain ⟨b, rfl, hu, rfl⟩ := runs_wrapped (rt_served rfl ho) (uvm_openBackend c {} _ hempty)
      exact hopened rfl hu
    | cuda =>
      cases rt_served rfl hm
      obtain ⟨b, rfl, hu, rfl⟩ := runs_wrapped (rt_served rfl ho) (cuda_openBackend c {} _ hempty)
      exact hopened rfl hu
  named := by
    rintro t cs s ⟨b, -, -, h⟩
    exact h.named
  refines := by
    rintro cs₀ s₀ i t l ⟨ob, r⟩ y a hR hp hr
    obtain ⟨⟨b, hob, hm, h⟩, hS⟩ := hR hp.1
    obtain rfl : ob = some b := hob
    obtain ⟨b', hy, hm', ho⟩ := outcome hp hr
    rw [hm] at ho hm'
    obtain ⟨t', l', hheap, hledger, h'⟩ := stored_outcome h hS hp ho
    refine ⟨t', l', hheap, hledger, fun hb => ?_⟩
    obtain ⟨h', hS'⟩ := h' hb
    exact ⟨⟨b', hy, hm', h'⟩, hS'⟩
  writes := by
    rintro t cs s s' ⟨p, x, rfl⟩ ⟨b, hb, hm, h⟩
    exact ⟨b, hb, hm, h.congr (sizes_write s.2 p x)⟩

/-! ## The end -/

/-- A runtime that takes back all memory, and answers every call that is valid. -/
abbrev Freeing (β : Type) : Prog.World RtCall RtCall.Answer (Runtime β) := ((Runtime.world β).filter RtCall.Succeeds).live

/-- `destroy` of an allocated block, or of the empty chunk, succeeds where nothing fails. -/
theorem freeing_destroy {write : RtText → σ → σ} {spend : Size → σ → σ} {c : Chunk}
    (hc : c.ptr = 0 ∨ ∃ k, r.blocks[c.ptr]? = some k) (b : σ) :
    Code.wp (Freeing β) (destroyChunk write spend c) (fun a _ _ => a.1 = .ok) b r := by
  unfold destroyChunk
  rw [Code.wp_bind, ask, Code.wp_call]
  refine ⟨?_, fun e r' he => ?_⟩
  · rcases hc with h0 | hk
    · exact ⟨none, r, .inl ⟨h0, rfl⟩, trivial⟩
    · exact ⟨none, _, .inr ⟨hk, rfl⟩, trivial⟩
  · cases e with
    | none => exact rfl
    | some e => exact he.2.elim

/-- A call whose code does no more than what never fails. -/
theorem wrapped_live {i : BackendCall} {wrap : σ → RtBackend} {x : RtM σ i.Answer} {b : σ} {ob : Option RtBackend}
    {Q : i.Answer → Runtime β → Prop} (hs : serve ob i = some (served wrap x b)) (h : Code.wp (Freeing β) x (fun v _ r' => Q v r') b r)
    (hi : ∀ v : i.Answer, i.Succeeds v) :
    (∃ v y, (Runtime.faultless β).answers i (ob, r) v y) ∧ ∀ v y, (Runtime.faultless β).answers i (ob, r) v y → Q v y.2 := by
  obtain ⟨⟨v, y, hr⟩, hall⟩ := Prog.over_live (Q := fun v y => Q v y.2) hs (Prog.wp_bind.2 h)
  exact ⟨⟨v, y, hr, hi v⟩, fun v y hr => hall v y hr.1⟩

/-- Where no chunk is held there are no allocations. -/
theorem Stored.empty (h : Stored m t ∅ u r) : r = {} := by
  obtain ⟨blocks⟩ := r
  obtain rfl : blocks = ∅ := by
    refine Std.ExtTreeMap.ext_getElem? fun p => ?_
    by_cases hp : p = 0
    · subst hp
      simpa using h.zero
    · have hnone : t.chunks[p]? = none := by
        rw [← h.held p hp]
        simp
      rw [h.blocks] at hnone
      simpa using hnone
  rfl

end RuntimeAux

end Vmem
