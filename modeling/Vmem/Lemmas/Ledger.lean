import Vmem.Stack

/-!
# Allocators keep to the ledger

Every call of a live allocator asks its backend only what the ledger permits, and its regions have the chunks that the ledger says it
holds.
-/

namespace Vmem

namespace LedgerAux

open Allocator Throwing

variable {α : Type} {a a' : Allocator} {l l' : Ledger}

/-- A live allocator whose regions have the chunks of the ledger, under their addresses. -/
structure Matches (a : Allocator) (l : Ledger) : Prop where
  live : a.dead = false
  sound : l.broken = false
  chunks : ∀ base : Ptr, l.chunks[base]? = a.regions[base]?.map Region.c
  ptr : ∀ (base : Ptr) (c : Chunk), l.chunks[base]? = some c → c.ptr = base

/-- Before any chunk went back. -/
def Holding (a : Allocator) (l : Ledger) : Prop := Matches a l ∧ l.shrunk = false

/-- A dead allocator asks no more. -/
def Kept (a : Allocator) (l : Ledger) : Prop := a.dead = false → Matches a l

/-- Matching depends on the regions and the flag only. -/
theorem Matches.congr (h : Matches a l) (hreg : a'.regions = a.regions) (hd : a'.dead = a.dead) : Matches a' l :=
  ⟨hd.trans h.live, h.sound, fun base => by rw [hreg]; exact h.chunks base, h.ptr⟩

theorem Holding.congr (h : Holding a l) (hreg : a'.regions = a.regions) (hd : a'.dead = a.dead) : Holding a' l := ⟨h.1.congr hreg hd, h.2⟩

/-- What holds before any chunk went back may be left so. -/
theorem Holding.kept (h : Holding a l) : Kept a l := fun _ => h.1

theorem kept_of_dead (h : a.dead = true) : Kept a l := fun hd => absurd hd (by simp [h])

/-- A region is written that keeps its chunk. -/
theorem Matches.setRegion (h : Matches a l) {base : Ptr} {r r' : Region} (hr : a.regions[base]? = some r) (hc : r'.c = r.c) :
    Matches (a.setRegion base r') l := by
  refine ⟨h.live, h.sound, fun b => ?_, h.ptr⟩
  rw [h.chunks b, Allocator.setRegion, OrdMap.getElem?_insert]
  split
  · subst b
    simp [hr, hc]
  · rfl

/-- The chunk of a region is in the ledger. -/
theorem Matches.find (h : Matches a l) {base : Ptr} {r : Region} (hr : a.regions[base]? = some r) : l.chunks[base]? = some r.c := by
  rw [h.chunks, hr]
  rfl

/-- The chunk of a region is held as it is. -/
theorem Matches.held (h : Matches a l) {base : Ptr} {r : Region} (hr : a.regions[base]? = some r) :
    r.c.ptr = base ∧ l.chunks[r.c.ptr]? = some r.c := by
  have hc := h.find hr
  have hptr := h.ptr base _ hc
  exact ⟨hptr, by rw [hptr]; exact hc⟩

/-! ## Pieces of the calls -/

/-- Code that asks only what is permitted, before any chunk goes back. -/
abbrev Keeps (x : AllocatorM α) : Prop := Throwing.Keeps Ledger.world Holding Kept x

/-- A call that the ledger does not record. -/
theorem keeps_ask {i : BackendCall} (hp : ∀ l : Ledger, l.broken = false → l.permits i)
    (hr : ∀ (l : Ledger) (r : i.Answer) (l' : Ledger), l.answers i r l' → l' = l) : Keeps (ask i) := by
  refine keeps_call fun a l h => ⟨hp l h.1.sound, fun r l' hl => ?_⟩
  rw [hr l r l' hl]
  exact h

/-- A failure keeps the ledger. -/
theorem keeps_fail (s : Status) (what : Complaint) : Keeps (fail s what : AllocatorM α) := by
  intro a l h
  show Kept (if s = .fatal then { a with dead := true } else a) l
  split
  · exact kept_of_dead rfl
  · exact h.kept

/-- Rounding up keeps it. -/
theorem keeps_roundUp (x : Size) : Keeps (roundUp x) :=
  keeps_bind (keeps_ask (fun _ h => ⟨h, trivial⟩) fun _ _ _ h => h) fun _ => keeps_pure _

/-- So does the next power of two. -/
theorem keeps_bitCeil (x : Size) : Keeps (bitCeil x) :=
  keeps_ite (keeps_pure _) (keeps_ask (fun _ h => ⟨h, trivial⟩) fun _ _ _ h => h)

/-- `find`: the region is one of the allocator's. -/
theorem find_wp {p : Ptr} {what : String} (h : Holding a l) :
    wp Ledger.world (find p what) (fun x a' l' => a' = a ∧ l' = l ∧ a.regions[x.1]? = some x.2) (fun _ => Kept) a l := by
  unfold find
  rw [wp_bind, wp_get]
  cases hl : a.lookup p with
  | none => exact keeps_fail _ _ a l h
  | some x =>
    refine ⟨rfl, rfl, ?_⟩
    unfold lookup at hl
    cases hf : a.regions.floor? p with
    | none =>
      rw [hf] at hl
      cases hl
    | some y =>
      rw [hf] at hl
      dsimp only at hl
      split at hl
      · cases hl
        exact (OrdMap.floor?_eq_some_iff.1 hf).1
      · cases hl

/-- Waiting changes nothing, unless it fails. -/
theorem sync_wp (h : Holding a l) : wp Ledger.world sync (fun _ a' l' => a' = a ∧ l' = l) (fun _ => Kept) a l := by
  unfold sync
  rw [wp_bind, ask, wp_call]
  refine ⟨⟨h.1.sound, trivial⟩, fun e l' hl => ?_⟩
  cases e with
  | none => exact ⟨rfl, hl⟩
  | some e => exact kept_of_dead rfl

/-- A region that is looked up is there. -/
theorem regionAt_wp (base : Ptr) (h : Holding a l) :
    wp Ledger.world (regionAt base) (fun r a' l' => a' = a ∧ l' = l ∧ a.regions[base]? = some r) (fun _ => Kept) a l := by
  unfold regionAt
  rw [wp_bind, wp_get]
  cases hr : a.regions[base]? with
  | some r => exact ⟨rfl, rfl, rfl⟩
  | none => exact ⟨⟨h.1.sound, trivial⟩, fun e => e.elim⟩

/-- Marking a slot leaves the chunk and the size of the objects. -/
theorem setBusy_wp (r : Region) (slot : BitVec 32) (x : Bool) (h : Holding a l) :
    wp Ledger.world (setBusy r slot x) (fun r' a' l' => a' = a ∧ l' = l ∧ r'.c = r.c ∧ r'.obj = r.obj) (fun _ => Kept) a l := by
  unfold setBusy
  split
  · exact ⟨rfl, rfl, rfl, rfl⟩
  · exact ⟨⟨h.1.sound, trivial⟩, fun _ _ hl => ⟨rfl, hl, rfl, rfl⟩⟩

/-! ## alloc -/

/-- A region for a new chunk, which the ledger has already. -/
theorem matches_emplace (h : Matches a l) {c : Chunk} {r : Region} (hc : r.c = c) (hnew : l.chunks[c.ptr]? = none ∨ l.chunks[c.ptr]? = some c) :
    Matches (a.emplace c.ptr r) { l with chunks := l.chunks.insert c.ptr c } := by
  have hptr : ∀ (b : Ptr) (c' : Chunk), (l.chunks.insert c.ptr c)[b]? = some c' → c'.ptr = b := by
    intro b c' hb
    rw [OrdMap.getElem?_insert] at hb
    split at hb
    · cases hb
      exact (‹b = c.ptr›).symm
    · exact h.ptr b c' hb
  unfold emplace
  split
  · rename_i hin
    obtain ⟨r₀, hr₀⟩ := Option.isSome_iff_exists.1 ((Std.ExtTreeMap.isSome_getElem?_eq_contains).trans hin)
    have hheld : l.chunks[c.ptr]? = some c := by
      rcases hnew with hnone | hsame
      · rw [h.find hr₀] at hnone
        cases hnone
      · exact hsame
    refine ⟨h.live, h.sound, fun b => ?_, hptr⟩
    rw [OrdMap.insert_of_getElem? hheld]
    exact h.chunks b
  · refine ⟨h.live, h.sound, fun b => ?_, hptr⟩
    rw [Allocator.setRegion, OrdMap.getElem?_insert, OrdMap.getElem?_insert, h.chunks b]
    split
    · rw [← hc]
      rfl
    · rfl

/-- A new chunk is in the ledger and in the regions. -/
theorem keeps_add (size obj : Size) : Keeps (add size obj) := by
  intro a l h
  unfold add
  rw [wp_bind, ask, wp_call]
  refine ⟨⟨h.1.sound, h.2⟩, ?_⟩
  rintro ⟨s, c⟩ l' (⟨hs, rfl⟩ | ⟨rfl, hnew, rfl⟩)
  · by_cases hn : s = .noMemory
    · rw [if_pos hn]
      exact ⟨⟨h.1.live, by simp [hn], h.1.chunks, h.1.ptr⟩, h.2⟩
    · rw [if_neg hn, if_pos hs]
      show Kept (if s = .fatal then { a with dead := true } else a) _
      split
      · exact kept_of_dead rfl
      · exact fun _ => ⟨h.1.live, by simp [*], h.1.chunks, h.1.ptr⟩
  · have hpart : Matches (if obj ≠ 0 then a.insertPartial obj c.ptr else a) l := h.1.congr (by split <;> rfl) (by split <;> rfl)
    exact ⟨matches_emplace hpart (newRegion_c c size obj) hnew, h.2⟩

/-- Taking a slot keeps the ledger. -/
theorem keeps_takeSlot (base : Ptr) (obj : Size) : Keeps (takeSlot base obj) := by
  intro a l h
  unfold takeSlot
  refine wp_seq (regionAt_wp base h) ?_
  rintro r a l ⟨rfl, rfl, hr⟩
  have hback : wp Ledger.world (backSlot r) (fun _ a' l' => a' = a ∧ l' = l) (fun _ => Kept) a l := by
    unfold backSlot
    split
    · exact ⟨rfl, rfl⟩
    · exact ⟨⟨h.1.sound, trivial⟩, fun _ _ hl => ⟨rfl, hl⟩⟩
  refine wp_seq hback ?_
  rintro slot a l ⟨rfl, rfl⟩
  refine wp_seq (setBusy_wp _ _ _ h) ?_
  rintro r' a l ⟨rfl, rfl, hc, -⟩
  have hset : Matches (a.setRegion base { r' with used := r'.used + 1 }) l := h.1.setRegion hr hc
  exact ⟨hset.congr (by split <;> rfl) (by split <;> rfl), h.2⟩

/-- So does an allocation in a slab. -/
theorem keeps_allocSmall (bytes : Size) : Keeps (allocSmall bytes) := by
  refine keeps_bind keeps_get fun a => keeps_bind (keeps_bitCeil _) fun obj => keeps_bind ?_ fun found => ?_
  · split
    · exact keeps_pure _
    · exact keeps_add _ _
  · cases found with
    | none => exact keeps_pure _
    | some base => exact keeps_takeSlot _ _

/-- So does one of a chunk of its own. -/
theorem keeps_allocLarge (bytes : Size) : Keeps (allocLarge bytes) := by
  refine keeps_bind (keeps_roundUp _) fun size => keeps_bind (keeps_add _ _) fun found => ?_
  cases found with
  | none => exact keeps_pure _
  | some base =>
    intro a l h
    refine wp_seq (regionAt_wp base h) ?_
    rintro r a l ⟨rfl, rfl, -⟩
    exact h

/-! ## The calls -/

/-- A call leaves the regions as the ledger has them, unless the allocator is dead then. -/
def Obeys (x : AllocatorM α) : Prop := ∀ a l, Holding a l → wp Ledger.world x (fun _ => Kept) (fun _ => Kept) a l

/-- Code that keeps the ledger obeys it. -/
theorem obeys_of_keeps {x : AllocatorM α} (h : Keeps x) : Obeys x := fun a l hl => wp_mono (h a l hl) (fun _ _ _ h => h.kept) fun _ _ _ h => h

/-- So does code behind the check that no error was fatal. -/
theorem obeys_live {x : AllocatorM α} (h : Obeys x) : Obeys (do live; x) := by
  intro a l hl
  unfold live
  rw [wp_bind, wp_bind, wp_get, if_neg (by simp [hl.1.live]), wp_pure]
  exact h a l hl

/-- Freeing a slot leaves the ledger. -/
theorem freeSlot_wp {base p : Ptr} {r : Region} (h : Holding a l) (hr : a.regions[base]? = some r) :
    wp Ledger.world (freeSlot base r p) (fun _ a' l' => Holding a' l' ∧ l' = l) (fun _ => Kept) a l := by
  unfold freeSlot
  rw [wp_ite]
  refine ⟨fun _ => keeps_fail _ _ a l h, fun _ => ?_⟩
  have hbusy : wp Ledger.world (busyAt r (slotOf base r p)) (fun _ a' l' => a' = a ∧ l' = l) (fun _ => Kept) a l := by
    unfold busyAt
    split
    · exact ⟨rfl, rfl⟩
    · exact ⟨⟨h.1.sound, trivial⟩, fun _ _ hl => ⟨rfl, hl⟩⟩
  refine wp_seq hbusy ?_
  rintro busy a l ⟨rfl, rfl⟩
  rw [wp_ite]
  refine ⟨fun _ => keeps_fail _ _ a l h, fun _ => ?_⟩
  refine wp_seq (setBusy_wp _ _ _ h) ?_
  rintro r' a l ⟨rfl, rfl, hc, -⟩
  rw [wp_bind, wp_modify]
  have hset : Holding (a.setRegion base { r' with freeSlots := slotOf base r p :: r'.freeSlots, used := r'.used - 1 }) l :=
    ⟨h.1.setRegion hr hc, h.2⟩
  rw [wp_ite]
  exact ⟨fun _ => ⟨hset.congr rfl rfl, rfl⟩, fun _ => ⟨hset.congr rfl rfl, rfl⟩⟩

/-- A chunk goes back, and its region is gone. -/
theorem release_wp {base : Ptr} {c : Chunk} (h : Holding a l) (hc : l.chunks[base]? = some c) :
    wp Ledger.world (release base c) (fun _ => Kept) (fun _ => Kept) a l := by
  unfold release
  refine wp_seq (sync_wp h) ?_
  rintro _ a l ⟨rfl, rfl⟩
  have hptr := h.1.ptr base c hc
  rw [wp_bind, ask, wp_call]
  refine ⟨⟨h.1.sound, show l.chunks[c.ptr]? = some c by rw [hptr]; exact hc⟩, ?_⟩
  rintro ⟨s, c'⟩ l' (⟨rfl, rfl⟩ | ⟨rfl, rfl⟩)
  · refine fun _ => ⟨h.1.live, h.1.sound, fun b => ?_, fun b c₁ hb => ?_⟩
    · rw [hptr, OrdMap.getElem?_erase, OrdMap.getElem?_erase, h.1.chunks b]
      split <;> rfl
    · rw [hptr, OrdMap.getElem?_erase] at hb
      split at hb
      · cases hb
      · exact h.1.ptr b c₁ hb
  · exact kept_of_dead rfl

/-- `free` gives back a chunk that is in the ledger, or none. -/
theorem obeys_free (p : Ptr) : Obeys (free p) := by
  unfold free
  split
  · exact obeys_of_keeps (keeps_pure _)
  · refine obeys_live fun a l h => wp_seq (find_wp h) ?_
    rintro ⟨base, r⟩ a l ⟨rfl, rfl, hr⟩
    have hheld := h.1.find hr
    dsimp only
    rw [wp_ite]
    refine ⟨fun _ => wp_seq (freeSlot_wp h hr) ?_, fun _ => ?_⟩
    · rintro gone a' _ ⟨h', rfl⟩
      rw [wp_ite]
      exact ⟨fun _ => release_wp h' hheld, fun _ => h'.kept⟩
    · rw [wp_ite]
      exact ⟨fun _ => keeps_fail _ _ a l h, fun _ => release_wp h hheld⟩

/-- A hint never throws. -/
theorem obeys_move (p : Ptr) (target : Loc) : Obeys (Allocator.move p target) := by
  intro a l h
  unfold Allocator.move
  rw [wp_bind, wp_get, if_neg (by simp [h.1.live])]
  cases hl : a.lookup p with
  | none => exact h.kept
  | some x =>
    obtain ⟨base, r⟩ := x
    have hfind : wp Ledger.world (find p "") (fun x a' l' => a' = a ∧ l' = l ∧ a.regions[x.1]? = some x.2) (fun _ => Kept) a l := find_wp h
    unfold find at hfind
    rw [wp_bind, wp_get, hl] at hfind
    obtain ⟨-, -, hr⟩ := hfind
    obtain ⟨hptr, hheld⟩ := h.1.held hr
    dsimp only
    rw [wp_ite]
    refine ⟨fun _ => h.kept, fun _ => ?_⟩
    rw [wp_bind, ask, wp_call]
    refine ⟨⟨h.1.sound, trivial⟩, ?_⟩
    rintro can l' rfl
    rw [wp_ite]
    refine ⟨fun _ => h.kept, fun _ => ?_⟩
    rw [wp_ite]
    refine ⟨fun _ => h.kept, fun _ => ?_⟩
    rw [wp_bind, wp_tryCatch, wp_bind]
    refine wp_mono (sync_wp h) ?_ fun e a' l' h' => h'
    rintro _ a l ⟨rfl, rfl⟩
    rw [wp_pure]
    dsimp only
    rw [wp_bind, ask, wp_call]
    refine ⟨⟨h.1.sound, hheld⟩, ?_⟩
    rintro ⟨s, c⟩ l'' ⟨hc, rfl⟩
    rw [wp_bind, wp_modify]
    by_cases hs : s = .fatal
    · rw [if_pos hs]
      exact kept_of_dead rfl
    · rw [if_neg hs]
      refine fun _ => ⟨h.1.live, by simp [hs], fun b => ?_, fun b c₁ hb => ?_⟩
      · rw [Allocator.setRegion, hptr, OrdMap.getElem?_insert, OrdMap.getElem?_insert, h.1.chunks b]
        split <;> rfl
      · rw [hptr, OrdMap.getElem?_insert] at hb
        split at hb
        · cases hb
          subst b
          exact hc.trans hptr
        · exact h.1.ptr b c₁ hb

/-- Every call of the program obeys the ledger. -/
theorem obeys_program (c : AppCall) : Obeys c.program := by
  have hask {i : BackendCall} (hp : ∀ l : Ledger, l.broken = false → l.permits i)
      (hr : ∀ (l : Ledger) (r : i.Answer) (l' : Ledger), l.answers i r l' → l' = l) : Obeys (ask i) := obeys_of_keeps (keeps_ask hp hr)
  cases c with
  | alloc bytes =>
    refine obeys_live (obeys_of_keeps (keeps_ite (keeps_pure _) (keeps_bind keeps_get fun a => ?_)))
    exact keeps_ite (keeps_allocLarge _) (keeps_allocSmall _)
  | free p => exact obeys_free p
  | evict p => exact obeys_move p .host
  | prefetch p => exact obeys_move p .device
  | locate p =>
    intro a l h
    refine wp_seq (find_wp h) ?_
    rintro x a l ⟨rfl, rfl, -⟩
    exact h.kept
  | used => exact hask (fun _ h => ⟨h, trivial⟩) fun _ _ _ h => h
  | usedAt l =>
    refine obeys_of_keeps (keeps_bind (keeps_ask (fun _ h => ⟨h, trivial⟩) fun _ _ _ h => h) fun r => ?_)
    cases r with
    | ok bytes => exact keeps_pure _
    | error s => exact keeps_throw (fun _ _ h => h.kept) _
  | info =>
    refine obeys_of_keeps (keeps_bind keeps_get fun a => keeps_bind (keeps_ask (fun _ h => ⟨h, trivial⟩) fun _ _ _ h => h) fun link => ?_)
    exact keeps_bind (keeps_ask (fun _ h => ⟨h, trivial⟩) fun _ _ _ h => h) fun bytes => keeps_pure _
  | reconnect => exact hask (fun _ h => ⟨h, trivial⟩) fun _ _ _ h => h

/-! ## Over a world that refines another -/

variable {S T : Type} {U : Prog.World BackendCall BackendCall.Answer S} {V : Prog.World BackendCall BackendCall.Answer T}
  {R : T → Ledger → S → Prop}

/-- Code that obeys the ledger runs in the refined world as well. -/
theorem Obeys.runs {x : AllocatorM α} (hx : Obeys x) (hU : U.Refines V Ledger.world R) {t : T} {s s' : S} {r : Except Error α}
    (hl : Holding a l) (hR : R t l s) (hr : Prog.Runs U (x.run a) s (r, a') s') :
    ∃ (t' : T) (l' : Ledger), Prog.Runs V (x.run a) t (r, a') t' ∧ Kept a' l' ∧ R t' l' s' := by
  obtain ⟨t', l', hruns, hkept, hR'⟩ := hU.runs hr hR (hx a l hl)
  refine ⟨t', l', hruns, ?_, hR'⟩
  cases r <;> exact hkept

/-- The part of the constructor behind `open`. -/
theorem keeps_sizes (cfg : Config) : Keeps (do
    let chunk ← roundUp cfg.smallChunk
    modify fun a => { a with cfg := { a.cfg with smallChunk := chunk } }
    let max ← bitCeil cfg.smallMax
    if max > chunk then throw ⟨.unsupported, .config⟩ else pure ()) := by
  refine keeps_bind (keeps_roundUp _) fun chunk => keeps_bind (keeps_modify fun a l h => h.congr rfl rfl) fun _ => ?_
  exact keeps_bind (keeps_bitCeil _) fun max => keeps_ite (keeps_throw (fun _ _ h => h.kept) _) (keeps_pure _)

/-- A constructor that returns: it made its backend and opened it, and the rest runs in the refined world as well. -/
theorem construct_runs {R : S → T → Ledger → S → Prop} (hU : ∀ s₀, U.Refines V Ledger.world (R s₀)) {cfg : Config} {env : Env}
    {k : Kind} (hk : envKind env cfg.backend = .ok k) {s₀ s : S} {P : T → Prop}
    (hopen : ∀ (c : BackendConfig) (s₁ s₂ : S), U.answers (.make k) s₀ () s₁ → U.answers (.openWith c) s₁ .ok s₂ →
      ∃ t : T, P t ∧ R s₂ t {} s₂)
    (hmake : ∀ t, V.answers (.make k) t () t) (hok : ∀ (c : BackendConfig) (t : T), V.answers (.openWith c) t .ok t)
    (hr : Prog.Runs U ((construct cfg env).run {}) s₀ (.ok (), a) s) :
    ∃ (s₂ : S) (t t' : T) (l' : Ledger), P t ∧ Prog.Runs V ((construct cfg env).run {}) t (.ok (), a) t' ∧ Kept a l' ∧ R s₂ t' l' s := by
  unfold construct at hr ⊢
  rw [hk] at hr ⊢
  dsimp only at hr ⊢
  rcases runs_seq_cases hr with ⟨e, he, -⟩ | ⟨_, a₁, s₁, hm, hr⟩
  · cases he
  cases hm
  rcases runs_seq_cases hr with ⟨e, he, -⟩ | ⟨_, a₂, s₂, hm, hr⟩
  · cases he
  obtain ⟨_, -, rfl, hmade⟩ := answers_of_runs hm
  rcases runs_seq_cases hr with ⟨e, he, -⟩ | ⟨st, a₃, s₃, ho, hr⟩
  · cases he
  obtain ⟨st', hst, rfl, hopened⟩ := answers_of_runs ho
  cases hst
  by_cases hst : st = .ok
  · subst hst
    rw [if_neg (by simp)] at hr
    obtain ⟨t, hP, hR⟩ := hopen _ _ _ hmade hopened
    have hl : Holding { ({} : Allocator) with cfg := cfg } {} := ⟨⟨rfl, rfl, fun _ => rfl, fun base c hc => by simp at hc⟩, rfl⟩
    obtain ⟨t', l', hruns, hkept, hR'⟩ := (obeys_of_keeps (keeps_sizes cfg)).runs (hU _) hl hR hr
    refine ⟨_, t, t', l', hP, ?_, hkept, hR'⟩
    refine runs_seq runs_modify (runs_seq (runs_call (hmake t)) (runs_seq (runs_call (hok _ t)) ?_))
    rw [if_neg (by simp)]
    exact hruns
  · rw [if_pos hst] at hr
    cases hr

end LedgerAux

/-! ## Since a call began -/

section

variable {γ : Type}

/-- What a call has done so far, from the chunks `cs₀` with the contents `m₀`: until a chunk goes back the old ones are all there, and each
chunk is an old one with its old contents, or lies apart from all of them. -/
structure Since (cs₀ : OrdMap Ptr Chunk) (m₀ : Ptr → Option γ) (l : Ledger) (m : Ptr → Option γ) : Prop where
  whole : l.shrunk = false → ∀ (va : Ptr) (c : Chunk), cs₀[va]? = some c → ∃ c' : Chunk, l.chunks[va]? = some c' ∧ c'.size = c.size
  each : ∀ (va : Ptr) (c : Chunk), l.chunks[va]? = some c → (∃ c₀ : Chunk, cs₀[va]? = some c₀ ∧ c₀.size = c.size ∧ m va = m₀ va) ∨
    ∀ (va₀ : Ptr) (c₀ : Chunk), cs₀[va₀]? = some c₀ → Apart va c.size va₀ c₀.size

/-- When a call begins nothing has happened. -/
theorem since_start (cs₀ : OrdMap Ptr Chunk) (m₀ : Ptr → Option γ) : Since cs₀ m₀ { chunks := cs₀ } m₀ :=
  ⟨fun _ _ c h => ⟨c, h, rfl⟩, fun _ c h => .inl ⟨c, h, rfl, rfl⟩⟩

/-- One more step: chunks with the same size and contents, and new ones apart from the old. -/
theorem Since.step {cs₀ : OrdMap Ptr Chunk} {m₀ m m' : Ptr → Option γ} {l l' : Ledger} (h : Since cs₀ m₀ l m)
    (hold : l'.shrunk = false → l.shrunk = false ∧
      ∀ (va : Ptr) (c : Chunk), l.chunks[va]? = some c → ∃ c' : Chunk, l'.chunks[va]? = some c' ∧ c'.size = c.size)
    (hnew : ∀ (va : Ptr) (c' : Chunk), l'.chunks[va]? = some c' →
      (∃ c : Chunk, l.chunks[va]? = some c ∧ c.size = c'.size ∧ m' va = m va) ∨
        ∀ (va₀ : Ptr) (c₀ : Chunk), cs₀[va₀]? = some c₀ → Apart va c'.size va₀ c₀.size) : Since cs₀ m₀ l' m' := by
  refine ⟨fun hs va c hc => ?_, fun va c' hc' => ?_⟩
  · obtain ⟨hs, hkept⟩ := hold hs
    obtain ⟨c₁, hc₁, hsize₁⟩ := h.whole hs va c hc
    obtain ⟨c', hc', hsize⟩ := hkept va c₁ hc₁
    exact ⟨c', hc', hsize.trans hsize₁⟩
  · rcases hnew va c' hc' with ⟨c, hc, hsize, hcon⟩ | hap
    · rcases h.each va c hc with ⟨c₀, hc₀, hsize₀, hcon₀⟩ | hap
      · exact .inl ⟨c₀, hc₀, hsize₀.trans hsize, hcon.trans hcon₀⟩
      · exact .inr (hsize ▸ hap)
    · exact .inr hap

end

/-! ## Backends that are heaps -/

/-- What holds during a call, which found the chunks `cs₀` and the outside `s₀`, if `I` holds between two calls. -/
def During {S γ : Type} (memory : S → Ptr → Option γ) (I : Heap → OrdMap Ptr Chunk → S → Prop) (cs₀ : OrdMap Ptr Chunk) (s₀ : S)
    (t : Heap) (l : Ledger) (s : S) : Prop := l.broken = false → I t l.chunks s ∧ Since cs₀ (memory s₀) l (memory s)

/-- A backend of the kind `k`, whose chunks have the contents `memory`, is a heap for an allocator that keeps to its ledger. `I` holds between
two calls, of the heap and the chunks that the allocator holds. -/
structure Backs {S γ : Type} (W : Prog.World BackendCall BackendCall.Answer S) (k : Kind) (kernel : S → S → Prop) (start : S)
    (memory : S → Ptr → Option γ) (I : Heap → OrdMap Ptr Chunk → S → Prop) : Prop where
  opens : ∀ (c : BackendConfig) (s₁ s₂ : S), W.answers (.make k) start () s₁ → W.answers (.openWith c) s₁ .ok s₂ →
    ∃ t : Heap, t.chunks = ∅ ∧ I t ∅ s₂
  named : ∀ {t : Heap} {cs : OrdMap Ptr Chunk} {s : S}, I t cs s → ∀ (base : Ptr) (c : Chunk), cs[base]? = some c → c.ptr = base
  refines : ∀ (cs₀ : OrdMap Ptr Chunk) (s₀ : S), W.Refines (Heap.world false) Ledger.world (During memory I cs₀ s₀)
  writes : ∀ {t : Heap} {cs : OrdMap Ptr Chunk} {s s' : S}, kernel s s' → I t cs s → I t cs s'

namespace Backs

open LedgerAux

variable {S γ : Type} {W : Prog.World BackendCall BackendCall.Answer S} {k : Kind} {kernel : S → S → Prop} {start : S}
  {memory : S → Ptr → Option γ} {I : Heap → OrdMap Ptr Chunk → S → Prop} {a a' : Allocator} {s s' : S} {t : Heap}

/-- A live allocator between two calls holds the chunks of its regions. -/
theorem holding (hB : Backs W k kernel start memory I) (hd : a.dead = false) (hI : I t a.chunks s) : Holding a { chunks := a.chunks } :=
  ⟨⟨hd, rfl, fun base => by simp [Allocator.chunks], hB.named hI⟩, rfl⟩

/-- The ledger after a call has the chunks of the regions. -/
theorem chunks_of_kept {l : Ledger} (hk : Kept a l) (hd : a.dead = false) : l.broken = false ∧ l.chunks = a.chunks := by
  refine ⟨(hk hd).sound, Std.ExtTreeMap.ext_getElem? fun base => ?_⟩
  rw [(hk hd).chunks, Allocator.chunks, Std.ExtTreeMap.getElem?_map]

/-- What holds between two calls holds when a call begins. -/
theorem during_start {cs : OrdMap Ptr Chunk} (hI : I t cs s) : During memory I cs s t { chunks := cs } s :=
  fun _ => ⟨hI, since_start cs (memory s)⟩

/-- A call that does not end dead is one over the heap. -/
theorem call (hB : Backs W k kernel start memory I) (hd : a.dead = false) (hI : I t a.chunks s) {c : AppCall} {r : Except Error c.Result}
    (hr : Prog.Runs W (c.program.run a) s (r, a') s') (hd' : a'.dead = false) :
    ∃ (t' : Heap) (l : Ledger), Prog.Runs (Heap.world false) (c.program.run a) t (r, a') t' ∧ I t' a'.chunks s' ∧
      l.chunks = a'.chunks ∧ Since a.chunks (memory s) l (memory s') := by
  obtain ⟨t', l, hruns, hk, hR⟩ := (obeys_program c).runs (hB.refines a.chunks s) (hB.holding hd hI) (during_start hI) hr
  obtain ⟨hsound, hl⟩ := chunks_of_kept hk hd'
  obtain ⟨hI', hS⟩ := hR hsound
  exact ⟨t', l, hruns, hl ▸ hI', hl, hS⟩

/-- A run up to the first fatal error is one over a heap. -/
theorem reached (hB : Backs W k kernel start memory I) {ok : Allocator → AppCall → Prop} {x : App S} (h : x.Live W k kernel ok start)
    (hd : x.a.dead = false) :
    ∃ (gran : Size) (pos : gran ≠ 0) (movable : Bool) (t : Heap),
      App.Reached (Heap.world false) id (fun x c => ok x.a c) (Heap.start gran pos movable) ⟨x.a, t, x.objs⟩ ∧ I t x.a.chunks x.s := by
  induction h with
  | @built cfg env a s hk hr =>
    have hopen (c : BackendConfig) (s₁ s₂ : S) (h₁ : W.answers (.make k) start () s₁) (h₂ : W.answers (.openWith c) s₁ .ok s₂) :
        ∃ t : Heap, t.chunks = ∅ ∧ During memory I ∅ s₂ t {} s₂ := by
      obtain ⟨t, ht, hI⟩ := hB.opens c s₁ s₂ h₁ h₂
      exact ⟨t, ht, during_start hI⟩
    obtain ⟨s₂, t, t', l, ht, hruns, hkept, hR⟩ := construct_runs (hB.refines ∅) hk hopen (fun _ => rfl) (fun _ _ => rfl) hr
    obtain ⟨gran, pos, movable, chunks⟩ := t
    obtain rfl : chunks = ∅ := ht
    obtain ⟨hsound, hl⟩ := chunks_of_kept hkept hd
    exact ⟨gran, pos, movable, t', .built hruns, hl ▸ (hR hsound).1⟩
  | @call x c r a' s' h hd₀ hc hr ih =>
    obtain ⟨gran, pos, movable, t, hreach, hI⟩ := ih hd₀
    obtain ⟨t', l, hruns, hI', -⟩ := hB.call hd₀ hI hr hd
    exact ⟨gran, pos, movable, t', hreach.call hc hruns, hI'⟩
  | kernel h hk ih =>
    obtain ⟨gran, pos, movable, t, hreach, hI⟩ := ih hd
    exact ⟨gran, pos, movable, t, hreach, hB.writes hk hI⟩

/-! ## The end -/

open Allocator Throwing

variable {V : Prog.World BackendCall BackendCall.Answer S} {Q : S → Prop}

/-- Chunks that are held go back one by one. -/
theorem destroyAll_wp (hB : Backs W k kernel start memory I) (hsub : ∀ i s r s', V.answers i s r s' → W.answers i s r s')
    (hdes : ∀ {t : Heap} {cs : OrdMap Ptr Chunk} {s : S} {c : Chunk}, I t cs s → cs[c.ptr]? = some c →
      (∃ r s', V.answers (.destroy c) s r s') ∧ ∀ r s', V.answers (.destroy c) s r s' → r.1 = .ok) {rs : List (Ptr × Region)} :
    ∀ {cs : OrdMap Ptr Chunk} {t : Heap} {s : S}, (rs.map Prod.fst).Nodup →
      (∀ (base : Ptr) (c : Chunk), cs[base]? = some c ↔ ∃ r : Region, (base, r) ∈ rs ∧ r.c = c) → I t cs s →
      wp V.live (destroyAll rs) (fun _ _ s' => ∃ t' : Heap, I t' ∅ s') (fun _ _ _ => False) a s := by
  induction rs with
  | nil =>
    intro cs t s _ hcs hI
    obtain rfl : cs = ∅ := by
      refine Std.ExtTreeMap.ext_getElem? fun base => ?_
      cases hc : cs[base]? with
      | none => simp
      | some c =>
        obtain ⟨r, hr, -⟩ := (hcs base c).1 hc
        cases hr
    exact ⟨t, hI⟩
  | cons x rs ih =>
    obtain ⟨base, r⟩ := x
    intro cs t s hnd hcs hI
    have hc : cs[base]? = some r.c := (hcs base r.c).2 ⟨r, by simp, rfl⟩
    obtain rfl : r.c.ptr = base := hB.named hI base r.c hc
    obtain ⟨hans, hok⟩ := hdes hI hc
    obtain ⟨hbase, hnd⟩ := List.nodup_cons.1 hnd
    unfold destroyAll
    rw [wp_bind, ask, wp_call]
    refine ⟨hans, fun v s' hv => ?_⟩
    obtain ⟨t', l, -, hl, hR⟩ := hB.refines cs s (.destroy r.c) t { chunks := cs } s s' v (during_start hI) ⟨rfl, hc⟩ (hsub _ _ _ _ hv)
    rcases hl with ⟨-, rfl⟩ | ⟨hf, -⟩
    · refine ih hnd (fun b c => ?_) (hR rfl).1
      rw [OrdMap.getElem?_erase]
      split
      · subst b
        refine ⟨fun h => absurd h (by simp), ?_⟩
        rintro ⟨r', hr', -⟩
        exact absurd (List.mem_map_of_mem hr') hbase
      · rename_i hb
        rw [hcs b c]
        simp [hb]
    · rw [hok v s' hv] at hf
      cases hf

/-- An allocator that ends gives back its chunks before it closes its backend. -/
theorem ends (hB : Backs W k kernel start memory I) (hsub : ∀ i s r s', V.answers i s r s' → W.answers i s r s')
    (hsync : ∀ s : S, (∃ r s', V.answers .synchronize s r s') ∧ ∀ r s', V.answers .synchronize s r s' → r = none)
    (hdes : ∀ {t : Heap} {cs : OrdMap Ptr Chunk} {s : S} {c : Chunk}, I t cs s → cs[c.ptr]? = some c →
      (∃ r s', V.answers (.destroy c) s r s') ∧ ∀ r s', V.answers (.destroy c) s r s' → r.1 = .ok)
    (hclose : ∀ {t : Heap} {s : S}, I t ∅ s → (∃ r s', V.answers .close s r s') ∧ ∀ r s', V.answers .close s r s' → Q s')
    (hd : a.dead = false) (hI : I t a.chunks s) : wp V.live destruct (fun _ _ s' => Q s') (fun _ _ _ => False) a s := by
  unfold destruct
  rw [wp_bind, wp_get, if_neg (by simp [hd]), wp_bind, ask, wp_call]
  obtain ⟨hans, hnone⟩ := hsync s
  refine ⟨hans, fun e s₁ he => ?_⟩
  obtain rfl : e = none := hnone e s₁ he
  rw [if_pos rfl]
  obtain ⟨t₁, l, -, hl, hR⟩ := hB.refines a.chunks s .synchronize t { chunks := a.chunks } s s₁ none (during_start hI) ⟨rfl, trivial⟩
    (hsub _ _ _ _ he)
  obtain rfl : l = { chunks := a.chunks } := hl
  refine wp_seq (hB.destroyAll_wp hsub hdes (OrdMap.nodup_keys a.regions) (fun base c => ?_) (hR rfl).1) ?_
  · simp [Allocator.chunks, Std.ExtTreeMap.mem_toList_iff_getElem?_eq_some]
  · rintro _ a' s₂ ⟨t₂, hI₂⟩
    rw [ask, wp_call]
    exact hclose hI₂

end Backs

end Vmem
