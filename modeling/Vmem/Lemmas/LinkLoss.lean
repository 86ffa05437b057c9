import Vmem.LinkHistory

/-!
# The calls without their link

Every function of the backend makes the driver calls that it makes without a link, and leaves the same chunks and counts
(`Follows`); the link's own functions make none (`Aside`). The broker's answer enters in one place, the decision of `create` and
`move`. So a call is the program `ChunkCall.answered` of that answer, with calls of the link strewn in.
-/

namespace Vmem

/-- An object is like itself. -/
theorem VmemBackend.Alike.refl (b : VmemBackend) : b.Alike b := ⟨.refl b, rfl, rfl, rfl⟩

/-- Likeness goes both ways. -/
theorem VmemBackend.Alike.symm {b c : VmemBackend} (h : b.Alike c) : c.Alike b :=
  ⟨⟨h.memory.chunks.symm, h.memory.device.symm, h.memory.host.symm⟩, h.dev.symm, h.numa.symm, h.gran.symm⟩

/-- Objects that are like the same one are alike. -/
theorem VmemBackend.Alike.trans {b c d : VmemBackend} (h : b.Alike c) (h' : c.Alike d) : b.Alike d :=
  ⟨h.memory.trans h'.memory, h'.dev.trans h.dev, h'.numa.trans h.numa, h'.gran.trans h.gran⟩

/-- Alike objects make the same kinds of memory. -/
theorem VmemBackend.Alike.prop {b c : VmemBackend} (h : b.Alike c) (l : Loc) : c.prop l = b.prop l := by
  simp [VmemBackend.prop, h.dev, h.numa]

namespace LinkLossAux

open VmemBackend

variable {α γ : Type}

/-- Only driver calls: the world of a backend without a link. -/
def offline : Prog.World Op Op.Answer (List DriverEvent) where
  permits _ _ := True
  answers
    | .cu c, es, r, es' => es' = es ++ [.cu c r]
    | .drop c, es, _, es' => es' = es ++ [.drop c]
    | _, _, _, _ => False

/-- From alike objects, `x` makes the driver calls of `y` and ends alike, and the broker answers none of its requests. -/
def Follows (x y : BackendM α) : Prop :=
  ∀ (b c : VmemBackend) (h : History), b.Alike c → Code.wp History.world x (fun a b' h' => h'.answer = h.answer ∧
    ∃ c', b'.Alike c' ∧ Prog.Runs offline (y c) h.driver (a, c') h'.driver) b h

/-- `x` makes no driver call, leaves the object alike, and the broker answers none of its requests. -/
def Aside (x : BackendM α) : Prop :=
  ∀ (b : VmemBackend) (h : History), Code.wp History.world x
    (fun _ b' h' => b.Alike b' ∧ h'.driver = h.driver ∧ h'.answer = h.answer) b h

/-! ## Rules -/

theorem follows_pure (a : α) : Follows (pure a) (pure a) := by
  intro b c h hbc
  exact ⟨rfl, c, hbc, .ret _ _⟩

/-- Following is kept by sequences. -/
theorem follows_bind {x y : BackendM α} {f g : α → BackendM γ} (hx : Follows x y) (hf : ∀ a, Follows (f a) (g a)) :
    Follows (x >>= f) (y >>= g) := by
  intro b c h hbc
  refine Code.wp_seq (hx b c h hbc) ?_
  rintro a b' h' ⟨hans, c', hbc', hrun⟩
  refine Code.wp_mono (hf a b' c' h' hbc') ?_
  rintro a' b'' h'' ⟨hans', c'', hbc'', hrun'⟩
  exact ⟨hans'.trans hans, c'', hbc'', Prog.runs_bind.2 ⟨_, _, hrun, hrun'⟩⟩

/-- The object is read on both sides. -/
theorem follows_get {f g : VmemBackend → BackendM α} (h : ∀ b c, b.Alike c → Follows (f b) (g c)) :
    Follows (get >>= f) (get >>= g) := by
  intro b c k hbc
  exact h b c hbc b c k hbc

/-- Updates that keep objects alike follow one another. -/
theorem follows_modify {u v : VmemBackend → VmemBackend} (h : ∀ b c, b.Alike c → (u b).Alike (v c)) :
    Follows (modify u) (modify v) := by
  intro b c k hbc
  exact ⟨rfl, _, h b c hbc, .ret _ _⟩

/-- A branch follows one on the same condition, side by side. -/
theorem follows_ite {p : Prop} [Decidable p] {x y x' y' : BackendM α} (h : Follows x y) (h' : Follows x' y') :
    Follows (if p then x else x') (if p then y else y') := by
  split
  · exact h
  · exact h'

/-- Code aside does not show. -/
theorem follows_aside {x : BackendM α} {f : α → BackendM γ} {y : BackendM γ} (hx : Aside x) (hf : ∀ a, Follows (f a) y) :
    Follows (x >>= f) y := by
  intro b c h hbc
  refine Code.wp_seq (hx b h) ?_
  rintro a b' h' ⟨hbb', hdriver, hans⟩
  have hf := hf a b' c h' (hbb'.symm.trans hbc)
  rw [hdriver, hans] at hf
  exact hf

theorem aside_pure (a : α) : Aside (pure a : BackendM α) := by
  intro b h
  exact ⟨.refl b, rfl, rfl⟩

/-- Sequences of code that is aside are aside. -/
theorem aside_bind {x : BackendM α} {f : α → BackendM γ} (hx : Aside x) (hf : ∀ a, Aside (f a)) : Aside (x >>= f) := by
  intro b h
  refine Code.wp_seq (hx b h) ?_
  rintro a b' h' ⟨hb, hdriver, hans⟩
  refine Code.wp_mono (hf a b' h') ?_
  rintro a' b'' h'' ⟨hb', hdriver', hans'⟩
  exact ⟨hb.trans hb', hdriver'.trans hdriver, hans'.trans hans⟩

theorem aside_get : Aside (get : BackendM VmemBackend) := by
  intro b h
  exact ⟨.refl b, rfl, rfl⟩

/-- An update of the link alone is aside. -/
theorem aside_modify {u : VmemBackend → VmemBackend} (h : ∀ b : VmemBackend, b.Alike (u b)) :
    Aside (modify u : BackendM PUnit) := by
  intro b k
  exact ⟨h b, rfl, rfl⟩

/-- So is a call that is recorded neither for the driver nor as an answer. -/
theorem aside_ask {o : Op} (ho : ∀ (h : History) (r : o.Answer), (h.record o r).driver = h.driver ∧
    (h.record o r).answer = h.answer) : Aside (ask o) := by
  intro b h
  refine ⟨trivial, ?_⟩
  rintro r h' rfl
  exact ⟨.refl b, ho h r⟩

/-! ## The link -/

/-- Closing the link is aside. -/
theorem aside_disconnectBroker (next : Link) : Aside (disconnectBroker next) := by
  refine aside_bind (aside_bind aside_get fun b => ?_) fun _ => aside_modify fun b => ⟨⟨rfl, rfl, rfl⟩, rfl, rfl, rfl⟩
  split
  · exact aside_ask fun h r => ⟨rfl, rfl⟩
  · exact aside_pure _

/-- What a failed send or receive does. -/
theorem break_wp (e : ErrText) (a : α) (b : VmemBackend) (h : History) : Code.wp History.world (do
    modify fun b => { b with err := e }
    disconnectBroker .broken
    pure a)
    (fun a' b' h' => a' = a ∧ b.Alike b' ∧ h'.driver = h.driver ∧ h'.answer = h.answer) b h := by
  refine Code.wp_seq (aside_modify (u := fun b => { b with err := e }) (fun b => ⟨⟨rfl, rfl, rfl⟩, rfl, rfl, rfl⟩) b h) ?_
  rintro _ b₁ h₁ ⟨hb₁, hd₁, ha₁⟩
  refine Code.wp_seq (aside_disconnectBroker .broken b₁ h₁) ?_
  rintro _ b₂ h₂ ⟨hb₂, hd₂, ha₂⟩
  exact ⟨rfl, hb₁.trans hb₂, hd₂.trans hd₁, ha₂.trans ha₁⟩

/-- Sending a message is aside, whether it goes out or not. -/
theorem aside_sendMsg (m : Msg) : Aside (sendMsg m) := by
  refine aside_bind aside_get fun b => ?_
  split
  · exact aside_pure _
  · refine aside_bind (aside_ask fun h r => ⟨rfl, rfl⟩) fun r => ?_
    split
    · exact aside_pure _
    · intro b h
      refine Code.wp_mono (break_wp _ _ b h) ?_
      rintro sent b' h' ⟨-, hb⟩
      exact hb

/-- After a message that went out, the next reply counts as an answer if the message was an `Alloc` or a `Move`. -/
theorem sendMsg_asks (m : Msg) (b : VmemBackend) (h : History) : Code.wp History.world (sendMsg m)
    (fun sent b' h' => b.Alike b' ∧ h'.driver = h.driver ∧ h'.answer = h.answer ∧
      (sent = true → h'.asked = decide (m.type = .alloc ∨ m.type = .move))) b h := by
  unfold sendMsg
  rw [Code.wp_bind, Code.wp_get]
  split
  · exact ⟨.refl b, rfl, rfl, nofun⟩
  · rw [Code.wp_bind, ask, Code.wp_call]
    refine ⟨trivial, ?_⟩
    rintro r h' rfl
    cases r with
    | none => exact ⟨.refl b, rfl, rfl, fun _ => rfl⟩
    | some e =>
      refine Code.wp_mono (break_wp (.send e) false b (h.record (.send b.fd m) (some e))) ?_
      rintro sent b' h' ⟨rfl, hb, hd, ha⟩
      exact ⟨hb, hd, ha, nofun⟩

/-- The reply of a request, if one comes: it is the answer of the call if the request was an `Alloc` or a `Move`. -/
theorem sendAndRecv_answer (m : Msg) (b : VmemBackend) (h : History) : Code.wp History.world (sendAndRecv m)
    (fun rep b' h' => b.Alike b' ∧ h'.driver = h.driver ∧
      h'.answer = if rep.isSome ∧ (m.type = .alloc ∨ m.type = .move) then rep else h.answer) b h := by
  unfold sendAndRecv
  refine Code.wp_seq (sendMsg_asks m b h) ?_
  rintro sent b' h' ⟨hb, hd, ha, hasked⟩
  cases sent with
  | false => exact ⟨hb, hd, by simpa using ha⟩
  | true =>
    have hasked := hasked rfl
    simp only [Bool.not_true, Bool.false_eq_true, if_false]
    rw [Code.wp_bind, Code.wp_get, Code.wp_bind, ask, Code.wp_call]
    refine ⟨trivial, ?_⟩
    have hbreak (e : ErrText) : Code.wp History.world (do
        modify fun b => { b with err := e }
        disconnectBroker .broken
        pure (none : Option Reply))
        (fun rep b' h' => b.Alike b' ∧ h'.driver = h.driver ∧
          h'.answer = if rep.isSome ∧ (m.type = .alloc ∨ m.type = .move) then rep else h.answer) b' h' := by
      refine Code.wp_mono (break_wp e none b' h') ?_
      rintro rep b'' h'' ⟨rfl, hb', hd', ha'⟩
      exact ⟨hb.trans hb', hd'.trans hd, by simpa using ha'.trans ha⟩
    rintro r h'' rfl
    cases r with
    | reply rep =>
      refine ⟨hb, ?_, ?_⟩
      · simp only [History.record]
        split <;> exact hd
      · simp only [History.record, hasked, decide_eq_true_eq, Option.isSome_some, true_and]
        split
        · rfl
        · exact ha
    | error e => exact hbreak (.recv e)
    | short n => exact hbreak .recvClosed

/-- So is the greeting, which is no request for memory. -/
theorem aside_greet (fd : Fd) : Aside (greet fd) := by
  refine aside_bind (aside_modify fun b => ⟨⟨rfl, rfl, rfl⟩, rfl, rfl, rfl⟩) fun _ => aside_bind aside_get fun b => ?_
  refine aside_bind (fun b' h => ?_) fun rep => aside_pure _
  refine Code.wp_mono (sendAndRecv_answer _ b' h) ?_
  rintro rep b'' h' ⟨hb, hd, ha⟩
  exact ⟨hb, hd, by simpa using ha⟩

/-- So is connecting, up to any step that fails. -/
theorem aside_connectBroker : Aside connectBroker := by
  refine aside_bind aside_get fun b => ?_
  split
  · exact aside_pure _
  · refine aside_bind (aside_ask fun h r => by cases r <;> exact ⟨rfl, rfl⟩) fun s => ?_
    split
    · exact aside_pure _
    · refine aside_bind (aside_ask fun h r => ⟨rfl, rfl⟩) fun r => ?_
      split
      · exact aside_bind (aside_ask fun h r => ⟨rfl, rfl⟩) fun _ => aside_pure _
      · refine aside_bind (aside_ask fun h r => ⟨rfl, rfl⟩) fun r => ?_
        split
        · exact aside_bind (aside_ask fun h r => ⟨rfl, rfl⟩) fun _ => aside_pure _
        · exact aside_greet _

theorem aside_resyncAll (cs : List (Ptr × Rec)) : Aside (resyncAll cs) := by
  induction cs with
  | nil => exact aside_pure _
  | cons p cs ih => exact aside_bind (aside_sendMsg _) fun _ => ih

theorem aside_reconnect : Aside reconnect := by
  refine aside_bind aside_get fun b => ?_
  split
  · exact aside_bind (aside_modify fun b => ⟨⟨rfl, rfl, rfl⟩, rfl, rfl, rfl⟩) fun _ => aside_pure _
  · refine aside_bind (aside_disconnectBroker _) fun _ => aside_bind aside_connectBroker fun e => ?_
    split
    · exact aside_bind (aside_modify fun b => ⟨⟨rfl, rfl, rfl⟩, rfl, rfl, rfl⟩) fun _ => aside_pure _
    · exact aside_bind (aside_resyncAll _) fun _ => aside_bind aside_get fun b => aside_pure _

/-- So is the attempt before a decision. -/
theorem aside_maybeReconnect : Aside maybeReconnect := by
  refine aside_bind aside_get fun b => ?_
  split
  · exact aside_bind aside_reconnect fun _ => aside_pure _
  · exact aside_pure _

/-! ## The driver's functions -/

/-- A checked call without a link. -/
theorem runs_offline {c : CuCall} {k : Except CuError (BitVec 64) → Prog Op Op.Answer α} {es es' : List DriverEvent} {a : α}
    (r : Except CuError (BitVec 64)) (hk : Prog.Runs offline (k r) (es ++ [.cu c r]) a es') :
    Prog.Runs offline (.op (.cu c) k) es a es' := by
  have hanswer : offline.answers (.cu c) es r (es ++ [.cu c r]) := rfl
  exact .op hanswer hk

/-- A driver call follows itself: both runs have its answer. -/
theorem follows_cu (c : CuCall) (what : String) : Follows (cu c what) (cu c what) := by
  intro b b' h hb
  refine Code.wp_bind.2 ⟨trivial, ?_⟩
  rintro r h' rfl
  cases r with
  | ok v => exact ⟨rfl, b', hb, runs_offline (.ok v) (.ret _ _)⟩
  | error e => exact ⟨rfl, { b' with err := .cu what e }, ⟨⟨hb.memory.1, hb.memory.2, hb.memory.3⟩, hb.dev, hb.numa, hb.gran⟩,
      runs_offline (.error e) (.ret _ _)⟩

theorem follows_drop (c : CuCall) : Follows (drop c) (drop c) := by
  intro b b' h hb
  refine ⟨trivial, ?_⟩
  rintro r h' rfl
  exact ⟨rfl, b', hb, .op rfl (.ret _ _)⟩

theorem follows_createHandle (size : Size) (l : Loc) : Follows (createHandle size l) (createHandle size l) := by
  refine follows_get fun b c hbc => ?_
  rw [hbc.prop]
  exact follows_cu _ _

theorem follows_map (va : Ptr) (size : Size) (h : Handle) : Follows (map va size h) (map va size h) := by
  refine follows_bind (follows_cu _ _) fun r => follows_ite (follows_pure _) ?_
  refine follows_get fun b c hbc => ?_
  rw [hbc.dev]
  refine follows_bind (follows_cu _ _) fun r => follows_ite ?_ (follows_pure _)
  exact follows_bind (follows_drop _) fun _ => follows_pure _

/-- So does the copy that is waited for. -/
theorem follows_copyFenced (dst src : Ptr) (size : Size) : Follows (copyFenced dst src size) (copyFenced dst src size) :=
  follows_bind (follows_cu _ _) fun _ => follows_ite (follows_pure _) (follows_bind (follows_cu _ _) fun _ => follows_pure _)

/-- So does the copy through a mapped range. -/
theorem follows_copyVia (tmp : Ptr) (nh : Handle) (va : Ptr) (size : Size) :
    Follows (copyVia tmp nh va size) (copyVia tmp nh va size) := by
  refine follows_bind (follows_map _ _ _) fun s => follows_ite ?_ (follows_pure _)
  exact follows_bind (follows_copyFenced _ _ _) fun s => follows_bind (follows_drop _) fun _ => follows_pure _

/-- So does the copy with its range. -/
theorem follows_copyInto (nh : Handle) (va : Ptr) (size : Size) : Follows (copyInto nh va size) (copyInto nh va size) := by
  refine follows_get fun b c hbc => ?_
  rw [hbc.gran]
  refine follows_bind (follows_cu _ _) fun r => ?_
  refine follows_bind (follows_ite (follows_copyVia _ _ _ _) (follows_pure _)) fun s => follows_ite ?_ (follows_pure _)
  exact follows_bind (follows_drop _) fun _ => follows_pure _

/-- So does putting other memory behind a range. -/
theorem follows_replaceBacking (va : Ptr) (size : Size) (old nh : Handle) :
    Follows (replaceBacking va size old nh) (replaceBacking va size old nh) := by
  refine follows_bind (follows_cu _ _) fun r => follows_ite (follows_pure _) ?_
  refine follows_bind (follows_map _ _ _) fun s => follows_ite (follows_pure _) ?_
  exact follows_bind (follows_map _ _ _) fun _ => follows_pure _

/-- Alike objects have the same handle, or none. -/
theorem follows_handleOf (va : Ptr) : Follows (handleOf va) (handleOf va) := by
  refine follows_get fun b c hbc => ?_
  rw [hbc.memory.chunks]
  split
  · exact follows_pure _
  · intro b c h hbc
    exact ⟨trivial, fun r => r.elim⟩

/-- Counting the same bytes keeps objects alike. -/
theorem follows_setUsed (l : Loc) {f : Size → Size} :
    Follows (modify fun b => b.setUsed l (f (b.used l))) (modify fun b => b.setUsed l (f (b.used l))) := by
  refine follows_modify fun b c hbc => ?_
  obtain ⟨⟨hchunks, hdevice, hhost⟩, hdev, hnuma, hgran⟩ := hbc
  cases l
  · exact ⟨⟨hchunks, congrArg f hdevice, hhost⟩, hdev, hnuma, hgran⟩
  · exact ⟨⟨hchunks, hdevice, congrArg f hhost⟩, hdev, hnuma, hgran⟩

/-- The exchange of the memory of a chunk follows itself. -/
theorem follows_swap (c : Chunk) (target : Loc) : Follows (swap c target) (swap c target) := by
  refine follows_bind (follows_handleOf _) fun old => follows_bind (follows_createHandle _ _) fun n => ?_
  refine follows_ite (follows_pure _) (follows_bind (follows_copyInto _ _ _) fun s => ?_)
  refine follows_bind (follows_ite (follows_replaceBacking _ _ _ _) (follows_pure _)) fun s => follows_ite ?_ ?_
  · exact follows_bind (follows_drop _) fun _ => follows_pure _
  · refine follows_bind (follows_drop _) fun _ => follows_bind (follows_modify fun b d hb => ?_) fun _ => ?_
    · obtain ⟨⟨hchunks, hdevice, hhost⟩, hdev, hnuma, hgran⟩ := hb
      exact ⟨⟨by rw [hchunks], hdevice, hhost⟩, hdev, hnuma, hgran⟩
    · refine follows_bind (follows_setUsed (f := (· - c.size)) _) fun _ => ?_
      exact follows_bind (follows_setUsed (f := (· + c.size)) _) fun _ => follows_pure _

/-- Making a handle follows the same without a broker: the `AllocFail` is aside. -/
theorem follows_createAt (va : Ptr) (size : Size) (loc : Loc) (counted : Bool) :
    Follows (createAt va size loc counted) (createAt va size loc false) := by
  refine follows_bind (follows_createHandle _ _) fun r => follows_ite ?_ (follows_pure _)
  refine follows_bind (follows_createHandle _ _) fun r => ?_
  simp only [Bool.false_eq_true, and_false, if_false]
  split
  · exact follows_aside (aside_sendMsg _) fun _ => follows_pure _
  · exact follows_pure _

/-- So does making and mapping it. -/
theorem follows_createMapped (va : Ptr) (size : Size) (loc : Loc) (counted : Bool) :
    Follows (createMapped va size loc counted) (createMapped va size loc false) := by
  refine follows_bind (follows_createAt _ _ _ _) fun r => follows_ite ?_ (follows_pure _)
  refine follows_bind (follows_map _ _ _) fun s => follows_ite ?_ (follows_pure _)
  exact follows_bind (follows_drop _) fun _ => follows_pure _

/-- Taking an allocation back at the broker is aside. -/
theorem aside_unplace (va : Ptr) (loc : Loc) (counted : Bool) : Aside (unplace va loc counted) := by
  unfold unplace
  split
  · exact aside_bind (aside_sendMsg _) fun _ => aside_pure _
  · exact aside_pure _

/-! ## The calls, given the answer -/

/-- Where a chunk goes by the broker's answer; without one, to the device. -/
def place : Option Reply → Status × Loc
  | none => (.ok, .device)
  | some rep => if rep.status = .ok then (.ok, rep.loc) else (.noMemory, .device)

/-- `create` from the point where the place is decided. -/
def createPlaced (va : Ptr) (size : Size) (out : Chunk) (d : Status × Loc × Bool) : BackendM (Status × Chunk) :=
  if d.1 ≠ .ok then do
    drop (.addressFree va size)
    pure (d.1, out)
  else do
    let r ← createMapped va size d.2.1 d.2.2
    if r.1 ≠ .ok then do
      unplace va r.2.1 d.2.2
      drop (.addressFree va size)
      pure (r.1, out)
    else do
      modify fun b =>
        ({ b with chunks := b.chunks.insert va ⟨r.2.2, size, r.2.1⟩ } : VmemBackend).setUsed r.2.1 (b.used r.2.1 + size)
      pure (.ok, ⟨va, size, r.2.1⟩)

/-- A call without a link, once the broker's answer is given. -/
def answered (ans : Option Reply) : ChunkCall → BackendM (Status × Chunk)
  | .create size out => do
    let b ← get
    let r ← cu (.reserve size b.gran) "cuMemAddressReserve"
    if r.1 ≠ .ok then pure (r.1, out) else createPlaced r.2 size out ((place ans).1, (place ans).2, false)
  | .destroy c => do
    let s ← destroyCalls c.ptr c.size
    if s ≠ .ok then pure (.fatal, c)
    else do
      modify fun b => ({ b with chunks := b.chunks.erase c.ptr } : VmemBackend).setUsed c.loc (b.used c.loc - c.size)
      pure (.ok, {})
  | .move c target => if c.loc = target then pure (.ok, c) else if (place ans).1 ≠ .ok then pure (.noMemory, c) else swap c target

/-- The question where a chunk goes leaves the object alike and tells what was answered. -/
theorem decidePlace_wp (va : Ptr) (size : Size) (b : VmemBackend) (h : History) (hans : h.answer = none) :
    Code.wp History.world (decidePlace va size)
      (fun d b' h' => b.Alike b' ∧ h'.driver = h.driver ∧ (d.1, d.2.1) = place h'.answer) b h := by
  unfold decidePlace
  rw [Code.wp_bind, Code.wp_get]
  split
  · exact ⟨.refl b, rfl, by rw [hans]; rfl⟩
  · refine Code.wp_seq (sendAndRecv_answer _ b h) ?_
    rintro rep b' h' ⟨hb, hd, ha⟩
    cases rep with
    | none => exact ⟨hb, hd, by rw [ha]; simp [hans, place]⟩
    | some rep =>
      have ha : h'.answer = some rep := by simpa using ha
      by_cases hok : rep.status = .ok
      · simp only [hok, ne_eq, not_true_eq_false, if_false]
        exact ⟨hb, hd, by simp [ha, place, hok]⟩
      · simp only [ne_eq, hok, not_false_eq_true, if_true]
        exact ⟨⟨⟨hb.memory.1, hb.memory.2, hb.memory.3⟩, hb.dev, hb.numa, hb.gran⟩, hd, by simp [ha, place, hok]⟩

/-- What follows the decision follows the same with a broker that counted nothing. -/
theorem follows_createPlaced (va : Ptr) (size : Size) (out : Chunk) (d : Status × Loc × Bool) :
    Follows (createPlaced va size out d) (createPlaced va size out (d.1, d.2.1, false)) := by
  refine follows_ite (follows_bind (follows_drop _) fun _ => follows_pure _) ?_
  refine follows_bind (follows_createMapped _ _ _ _) fun r => follows_ite ?_ ?_
  · -- nothing is counted on the right
    show Follows _ (drop (.addressFree va size) >>= fun _ => pure (r.1, out))
    exact follows_aside (aside_unplace _ _ _) fun _ => follows_bind (follows_drop _) fun _ => follows_pure _
  · refine follows_bind (follows_modify fun b c hbc => ?_) fun _ => follows_pure _
    obtain ⟨⟨hchunks, hdevice, hhost⟩, hdev, hnuma, hgran⟩ := hbc
    generalize r.2.1 = loc
    cases loc
    · exact ⟨⟨by simp [VmemBackend.setUsed, hchunks], congrArg (· + size) hdevice, hhost⟩, hdev, hnuma, hgran⟩
    · exact ⟨⟨by simp [VmemBackend.setUsed, hchunks], hdevice, congrArg (· + size) hhost⟩, hdev, hnuma, hgran⟩

/-- The driver calls of `destroy` follow themselves. -/
theorem follows_destroyCalls (va : Ptr) (size : Size) : Follows (destroyCalls va size) (destroyCalls va size) := by
  refine follows_bind (follows_cu _ _) fun r => follows_ite (follows_pure _) ?_
  refine follows_bind (follows_handleOf _) fun h => follows_bind (follows_cu _ _) fun r => follows_ite (follows_pure _) ?_
  exact follows_bind (follows_cu _ _) fun _ => follows_pure _

/-- A move that is reported follows one that is not. -/
theorem follows_swapReported (c : Chunk) (target : Loc) (asked : Bool) :
    Follows (swapReported c target asked) (swap c target) := by
  have h : Follows (swapReported c target asked) (swap c target >>= pure) := by
    refine follows_bind (follows_swap _ _) fun r => ?_
    split
    · exact follows_aside (aside_sendMsg _) fun _ => follows_pure _
    · exact follows_pure _
  rwa [bind_pure] at h

/-- Every result of a call is one of the call without a link, given the answer that the broker gave. -/
theorem program_wp (call : ChunkCall) {b c : VmemBackend} {h : History} (hbc : b.Alike c) (hans : h.answer = none) :
    Code.wp History.world call.program (fun r b' h' => ∃ c', b'.Alike c' ∧
      Prog.Runs offline (answered h'.answer call c) h.driver (r, c') h'.driver) b h := by
  cases call with
  | create size out =>
    have hrest (va : Ptr) {b c : VmemBackend} {h : History} (hbc : b.Alike c) (hans : h.answer = none) :
        Code.wp History.world (do
          maybeReconnect
          let d ← decidePlace va size
          createPlaced va size out d)
          (fun r b' h' => ∃ c', b'.Alike c' ∧ Prog.Runs offline
            (createPlaced va size out ((place h'.answer).1, (place h'.answer).2, false) c) h.driver (r, c') h'.driver) b h := by
      refine Code.wp_seq (aside_maybeReconnect b h) ?_
      rintro _ b₁ h₁ ⟨hb₁, hd₁, ha₁⟩
      refine Code.wp_seq (decidePlace_wp va size b₁ h₁ (ha₁.trans hans)) ?_
      rintro d b₂ h₂ ⟨hb₂, hd₂, hplace⟩
      refine Code.wp_mono (follows_createPlaced va size out d b₂ c h₂ ((hb₁.trans hb₂).symm.trans hbc)) ?_
      rintro r b' h' ⟨ha', c', hbc', hrun⟩
      rw [hd₂, hd₁] at hrun
      rw [ha', ← hplace]
      exact ⟨c', hbc', hrun⟩
    show Code.wp _ (VmemBackend.create size out) _ b h
    unfold VmemBackend.create
    rw [Code.wp_bind, Code.wp_get]
    refine Code.wp_seq (follows_cu _ _ b c h hbc) ?_
    rintro r b₁ h₁ ⟨ha₁, c₁, hbc₁, hrun₁⟩
    rw [← hbc.gran] at hrun₁
    by_cases hr : r.1 = .ok
    · simp only [hr, ne_eq, not_true_eq_false, if_false]
      refine Code.wp_mono (hrest r.2 hbc₁ (ha₁.trans hans)) ?_
      rintro r' b' h' ⟨c', hbc', hrun'⟩
      refine ⟨c', hbc', (Prog.runs_bind (p := cu (.reserve size c.gran) "cuMemAddressReserve" c)).2 ⟨_, _, hrun₁, ?_⟩⟩
      simp only [hr, ne_eq, not_true_eq_false, if_false]
      exact hrun'
    · simp only [ne_eq, hr, not_false_eq_true, if_true]
      refine ⟨c₁, hbc₁, (Prog.runs_bind (p := cu (.reserve size c.gran) "cuMemAddressReserve" c)).2 ⟨_, _, hrun₁, ?_⟩⟩
      simp only [ne_eq, hr, not_false_eq_true, if_true]
      exact .ret _ _
  | destroy ch =>
    have h' : Follows (destroy ch) (answered none (.destroy ch)) := by
      refine follows_bind (follows_destroyCalls _ _) fun s => follows_ite (follows_pure _) ?_
      refine follows_bind (follows_modify fun b c hbc => ?_) fun _ => ?_
      · obtain ⟨⟨hchunks, hdevice, hhost⟩, hdev, hnuma, hgran⟩ := hbc
        generalize ch.loc = loc
        cases loc
        · exact ⟨⟨by simp [VmemBackend.setUsed, hchunks], congrArg (· - ch.size) hdevice, hhost⟩, hdev, hnuma, hgran⟩
        · exact ⟨⟨by simp [VmemBackend.setUsed, hchunks], hdevice, congrArg (· - ch.size) hhost⟩, hdev, hnuma, hgran⟩
      · exact follows_aside (aside_sendMsg _) fun _ => follows_pure _
    exact Code.wp_mono (h' b c h hbc) fun r b' h' hres => hres.2
  | move ch target =>
    have hswap (asked : Bool) {b : VmemBackend} {h₁ : History} (hb : b.Alike c) (hd : h₁.driver = h.driver)
        (hok : (place h₁.answer).1 = .ok) (hl : ch.loc ≠ target) :
        Code.wp History.world (swapReported ch target asked) (fun r b' h' => ∃ c', b'.Alike c' ∧
          Prog.Runs offline (answered h'.answer (.move ch target) c) h.driver (r, c') h'.driver) b h₁ := by
      refine Code.wp_mono (follows_swapReported ch target asked b c h₁ hb) ?_
      rintro r b' h' ⟨ha, c', hbc', hrun⟩
      rw [hd] at hrun
      refine ⟨c', hbc', ?_⟩
      simp only [answered, ha, hok, if_neg hl, ne_eq, not_true_eq_false, if_false]
      exact hrun
    show Code.wp _ (VmemBackend.move ch target) _ b h
    unfold VmemBackend.move
    by_cases hl : ch.loc = target
    · rw [if_pos hl]
      refine ⟨c, hbc, ?_⟩
      simp only [answered, if_pos hl]
      exact .ret _ _
    · rw [if_neg hl]
      refine Code.wp_seq (aside_maybeReconnect b h) ?_
      rintro _ b₁ h₁ ⟨hb₁, hd₁, ha₁⟩
      have hans₁ : h₁.answer = none := ha₁.trans hans
      have hbc₁ : b₁.Alike c := hb₁.symm.trans hbc
      rw [Code.wp_bind, Code.wp_get]
      by_cases hlink : b₁.link = .connected
      · rw [if_pos hlink]
        refine Code.wp_seq (sendAndRecv_answer _ b₁ h₁) ?_
        rintro rep b₂ h₂ ⟨hb₂, hd₂, ha₂⟩
        have hbc₂ : b₂.Alike c := hb₂.symm.trans hbc₁
        have hdriver : h₂.driver = h.driver := hd₂.trans hd₁
        cases rep with
        | none =>
          refine hswap false hbc₂ hdriver ?_ hl
          have hnone : h₂.answer = none := by simpa [hans₁] using ha₂
          rw [hnone]
          rfl
        | some rep =>
          have hsome : h₂.answer = some rep := by simpa using ha₂
          by_cases hok : rep.status = .ok
          · simp only [hok, ne_eq, not_true_eq_false, if_false]
            exact hswap true hbc₂ hdriver (by simp [hsome, place, hok]) hl
          · simp only [ne_eq, hok, not_false_eq_true, if_true]
            refine ⟨c, ⟨⟨hbc₂.memory.1, hbc₂.memory.2, hbc₂.memory.3⟩, hbc₂.dev, hbc₂.numa, hbc₂.gran⟩, ?_⟩
            show Prog.Runs offline (answered h₂.answer (.move ch target) c) h.driver _ h₂.driver
            rw [hdriver, hsome]
            simp only [answered, place, if_neg hl, hok, if_false, ne_eq, reduceCtorEq, not_false_eq_true, if_true]
            exact .ret _ _
      · rw [if_neg hlink]
        exact hswap false hbc₁ hd₁ (by rw [hans₁]; rfl) hl

/-! ## Runs without a link -/

/-- A run without a link only adds to its driver calls. -/
theorem offline_extends {p : Prog Op Op.Answer α} {es es' : List DriverEvent} {a : α} (h : p.Runs offline es a es') :
    ∃ new, es' = es ++ new := by
  induction h with
  | ret a es => exact ⟨[], (List.append_nil es).symm⟩
  | @op o k es es₁ es' r a h hk ih =>
    obtain ⟨new, rfl⟩ := ih
    cases o with
    | cu c => exact ⟨.cu c r :: new, by rw [show es₁ = es ++ [.cu c r] from h, List.append_assoc]; rfl⟩
    | drop c => exact ⟨.drop c :: new, by rw [show es₁ = es ++ [.drop c] from h, List.append_assoc]; rfl⟩
    | _ => exact h.elim

/-- Without a link the outcomes of the checked driver calls determine the rest. -/
theorem offline_deterministic {p : Prog Op Op.Answer α} {es es₁ es₂ : List DriverEvent} {a₁ a₂ : α}
    (h₁ : p.Runs offline es a₁ es₁) (h₂ : p.Runs offline es a₂ es₂)
    (ho : es₁.filterMap DriverEvent.outcome = es₂.filterMap DriverEvent.outcome) : a₁ = a₂ ∧ es₁ = es₂ := by
  induction h₁ with
  | ret a es =>
    cases h₂
    exact ⟨rfl, rfl⟩
  | @op o k es es' es₁ r a h hk ih =>
    cases h₂ with
    | @op _ _ _ es'' _ r' _ h' hk' =>
      cases o with
      | cu c =>
        have he : es' = es ++ [.cu c r] := h
        have he' : es'' = es ++ [.cu c r'] := h'
        obtain ⟨new, hnew⟩ := offline_extends hk
        obtain ⟨new', hnew'⟩ := offline_extends hk'
        have hr : r = r' := by
          rw [hnew, hnew', he, he'] at ho
          simp only [List.filterMap_append, List.filterMap_cons, DriverEvent.outcome, List.filterMap_nil, List.append_assoc,
            List.append_cancel_left_eq, List.cons_append, List.cons.injEq] at ho
          exact ho.1
        subst hr
        exact ih (he.trans he'.symm ▸ hk') ho
      | drop c =>
        have he : es' = es ++ [.drop c] := h
        have he' : es'' = es ++ [.drop c] := h'
        exact ih (he.trans he'.symm ▸ hk') ho
      | _ => exact h.elim

/-- A run without a link is a run. -/
theorem runs_of_offline {p : Prog Op Op.Answer α} {es es' : List DriverEvent} {a : α} (h : p.Runs offline es a es') :
    p.Runs History.world { driver := es } a { driver := es' } := by
  induction h with
  | ret a es => exact .ret _ _
  | @op o k es es₁ es' r a h hk ih =>
    cases o with
    | cu c =>
      have he : es₁ = es ++ [.cu c r] := h
      subst he
      have hanswer : History.world.answers (.cu c) { driver := es } r { driver := es ++ [.cu c r] } := rfl
      exact .op hanswer ih
    | drop c =>
      have he : es₁ = es ++ [.drop c] := h
      subst he
      have hanswer : History.world.answers (.drop c) { driver := es } r { driver := es ++ [.drop c] } := rfl
      exact .op hanswer ih
    | _ => exact h.elim

/-! ## Local mode -/

/-- A driver call keeps an object local. -/
theorem keeps_local_cu (c : CuCall) (what : String) : Code.Keeps offline (fun b _ => b.Local) (cu c what) := by
  refine Code.keeps_bind (Code.keeps_call fun b s h => ⟨trivial, fun _ _ _ => h⟩) fun r => ?_
  split
  · exact Code.keeps_pure _
  · exact Code.keeps_bind (Code.keeps_modify fun b s h => h) fun _ => Code.keeps_pure _

/-- The driver calls of `destroy` keep it local. -/
theorem keeps_local_destroyCalls (va : Ptr) (size : Size) :
    Code.Keeps offline (fun b _ => b.Local) (destroyCalls va size) := by
  refine Code.keeps_bind (keeps_local_cu _ _) fun r => Code.keeps_ite (Code.keeps_pure _) ?_
  refine Code.keeps_bind (Code.keeps_bind Code.keeps_get fun b => ?_) fun h => ?_
  · split
    · exact Code.keeps_pure _
    · intro b s h
      exact ⟨trivial, fun r => r.elim⟩
  · refine Code.keeps_bind (keeps_local_cu _ _) fun r => Code.keeps_ite (Code.keeps_pure _) ?_
    exact Code.keeps_bind (keeps_local_cu _ _) fun _ => Code.keeps_pure _

/-- A local object does not reconnect. -/
theorem maybeReconnect_local {b : VmemBackend} (hb : b.Local) : maybeReconnect b = .ret ((), b) := by
  have hno : ¬(b.auto = true ∧ b.path ≠ [] ∧ b.link ≠ .connected) := by
    rintro ⟨hauto, hpath, -⟩
    rcases hb.2 with h | h
    · rw [h] at hauto
      cases hauto
    · exact hpath h
  show (if b.auto = true ∧ b.path ≠ [] ∧ b.link ≠ .connected then _ else pure () : BackendM Unit) b = _
  rw [if_neg hno]
  rfl

/-- A local object decides for the device without asking. -/
theorem decidePlace_local {b : VmemBackend} (hb : b.Local) (va : Ptr) (size : Size) :
    decidePlace va size b = .ret ((.ok, .device, false), b) := by
  show (if b.link ≠ .connected then pure (.ok, .device, false) else _ : BackendM (Status × Loc × Bool)) b = _
  rw [if_pos (by rw [hb.1]; decide)]
  rfl

/-- A local object sends nothing. -/
theorem sendMsg_local {b : VmemBackend} (hb : b.Local) (m : Msg) : sendMsg m b = .ret (false, b) := by
  show (if b.link ≠ .connected then pure false else _ : BackendM Bool) b = _
  rw [if_pos (by rw [hb.1]; decide)]
  rfl

/-- In local mode a call is the call without a link and without an answer. -/
theorem runs_local (call : ChunkCall) {b b' : VmemBackend} {r : Status × Chunk} {es es' : List DriverEvent} (hb : b.Local)
    (h : Prog.Runs offline (answered none call b) es (r, b') es') : Prog.Runs offline (call.program b) es (r, b') es' := by
  cases call with
  | create size out =>
    obtain ⟨⟨r₁, b₁⟩, es₁, h₁, h₂⟩ := (Prog.runs_bind (p := cu (.reserve size b.gran) "cuMemAddressReserve" b)).1 h
    have hb₁ : b₁.Local := h₁.of_wp (keeps_local_cu _ _ b es hb)
    refine (Prog.runs_bind (p := cu (.reserve size b.gran) "cuMemAddressReserve" b)).2 ⟨_, _, h₁, ?_⟩
    by_cases hr : r₁.1 = .ok
    · simp only [hr, ne_eq, not_true_eq_false, if_false] at h₂ ⊢
      refine Prog.runs_bind.2 ⟨((), b₁), es₁, ?_, Prog.runs_bind.2 ⟨((.ok, .device, false), b₁), es₁, ?_, h₂⟩⟩
      · rw [maybeReconnect_local hb₁]
        exact .ret _ _
      · rw [decidePlace_local hb₁]
        exact .ret _ _
    · simp only [ne_eq, hr, not_false_eq_true, if_true] at h₂ ⊢
      exact h₂
  | destroy c =>
    obtain ⟨⟨s, b₁⟩, es₁, h₁, h₂⟩ := (Prog.runs_bind (p := destroyCalls c.ptr c.size b)).1 h
    have hb₁ : b₁.Local := h₁.of_wp (keeps_local_destroyCalls _ _ b es hb)
    refine (Prog.runs_bind (p := destroyCalls c.ptr c.size b)).2 ⟨_, _, h₁, ?_⟩
    by_cases hs : s = .ok
    · simp only [hs, ne_eq, not_true_eq_false, if_false] at h₂ ⊢
      cases h₂
      refine Prog.runs_bind.2 ⟨((), _), _, .ret _ _, Prog.runs_bind.2 ⟨(false, _), _, ?_, .ret _ _⟩⟩
      rw [sendMsg_local]
      · exact .ret _ _
      · cases c.loc <;> exact hb₁
    · simp only [ne_eq, hs, not_false_eq_true, if_true] at h₂ ⊢
      exact h₂
  | move c target =>
    show Prog.Runs offline (VmemBackend.move c target b) es (r, b') es'
    unfold VmemBackend.move
    by_cases hl : c.loc = target
    · simp only [answered, if_pos hl] at h ⊢
      exact h
    · simp only [answered, if_neg hl, place, ne_eq, not_true_eq_false, if_false] at h ⊢
      refine Prog.runs_bind.2 ⟨((), b), es, ?_, ?_⟩
      · rw [maybeReconnect_local hb]
        exact .ret _ _
      · show Prog.Runs offline ((if b.link = .connected then _ else swapReported c target false : BackendM _) b) _ _ _
        rw [if_neg (by rw [hb.1]; decide)]
        refine Prog.runs_bind.2 ⟨_, _, h, .ret _ _⟩

end LinkLossAux

end Vmem
