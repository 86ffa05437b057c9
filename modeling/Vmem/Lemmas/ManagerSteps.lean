import Vmem.Lemmas.ManagerRecords

/-!
# Steps and runs of a manager

What a step is (`Stepped`), and what every run keeps as long as no call of the driver fails late. Then steps that happen: what the
driver may answer, it answers in some step.
-/

namespace Vmem

namespace ManagerAux

open Manager Throwing

variable {β : Type} {fails : Bool} {x x' : Managed β} {m : Manager} {w : Watched β} {t : ChunkToken}

/-! ## Steps -/

/-- What a step did: the call returned as the model says; or it threw and changed nothing; or the driver failed late. -/
inductive Stepped (fails : Bool) (x : Managed β) (c : ManagerCall) (x' : Managed β) : Except Fault c.Result → Bool → Prop
  | done {v : c.Result} (h : Done x c v x'.m { d := x'.d }) : Stepped fails x c x' (.ok v) false
  | refused {f : Fault} (h : x' = x) (hno : fails = true ∨ ¬x.m.abs.Allows c) : Stepped fails x c x' (.error f) false
  | broken {f : Fault} (h : ¬x'.Describes) (hfails : fails = true) : Stepped fails x c x' (.error f) true

/-- What a step can be: what the model does, or an error that changed nothing, or a late fault. -/
theorem step_cases (hx : x.Sound) {c : ManagerCall} (hid : x.CanCreate c) {r : Except Fault c.Result} {late : Bool}
    (h : x.Step fails c r x' late) : Stepped fails x c x' r late := by
  obtain ⟨w, hruns, hd, rfl⟩ := h
  obtain ⟨m', d'⟩ := x'
  have hd : w.d = d' := hd
  subst hd
  have hwp : Throwing.wp (Cuda.watched β fails) c.program _ _ _ _ := program_wp hx c hid
  have hpost := hruns.of_wp hwp
  cases r with
  | ok v =>
    have hdone : Done x c v m' w := hpost
    rw [hdone.late]
    exact .done ⟨rfl, hdone.allows, hdone.answers, hdone.after, hdone.sound, hdone.data⟩
  | error f =>
    have hundone : Undone fails x c m' w := hpost
    rcases hundone with ⟨hlate, hm, hd, hno⟩ | ⟨hlate, hfails, hdesc⟩
    · rw [hlate]
      exact .refused (by rw [hd, show m' = x.m from hm]) hno
    · rw [hlate]
      exact .broken hdesc hfails

/-- A step without a late fault keeps the manager in order. -/
theorem Stepped.sound (hx : x.Sound) {c : ManagerCall} {r : Except Fault c.Result} (h : Stepped fails x c x' r false) : x'.Sound := by
  cases h with
  | done h => exact h.sound
  | refused h hno =>
    rw [h]
    exact hx

/-- The records describe the driver after a step exactly if the fault was not late. -/
theorem Stepped.describes_iff (hx : x.Sound) {c : ManagerCall} {r : Except Fault c.Result} {late : Bool}
    (h : Stepped fails x c x' r late) : x'.Describes ↔ late = false := by
  cases h with
  | done h => exact ⟨fun _ => rfl, fun _ => h.sound.toDescribes⟩
  | refused h hno =>
    rw [h]
    exact ⟨fun _ => rfl, fun _ => hx.toDescribes⟩
  | broken h hfails => exact ⟨fun hd => absurd hd h, nofun⟩

/-! ## Runs -/

/-- A manager that was just made is in order. -/
theorem made_sound (h : x.Made) : x.Sound := by
  have hc {k : BitVec 32} {c : ManagedChunk} (hk : x.m.chunks[k]? = some c) : False := by
    rw [h.chunks] at hk
    simp at hk
  have hr {k : Ptr} {s : Size} (hk : x.m.reservations[k]? = some s) : False := by
    rw [h.reservations] at hk
    simp at hk
  refine ⟨⟨fun _ _ hk => (hc hk).elim, fun _ _ _ _ hk => (hc hk).elim, ?_, fun _ _ hk => (hc hk).elim, ?_, ?_⟩, h.serial, h.gran,
    fun _ _ hk => (hc hk).elim, fun _ _ hk => (hc hk).elim, fun _ _ hk => (hr hk).elim, fun _ _ _ _ _ hk => (hr hk).elim,
    fun _ _ hk => (hc hk).elim, fun _ _ _ _ _ hk => (hc hk).elim⟩
  · intro k p hp
    rw [h.driver] at hp
    simp at hp
  · intro va mp hmp
    rw [h.driver] at hmp
    simp at hmp
  · rw [h.driver, h.reservations]

/-- What a kernel writes is no concern of the records. -/
theorem sound_write (hx : x.Sound) (k : Handle) (y : β) : (⟨x.m, x.d.write k y⟩ : Managed β).Sound := by
  unfold Cuda.write
  cases hk : x.d.handles[k]? with
  | none => exact hx
  | some p =>
    refine { hx with chunk := ?_, handle := ?_ }
    · intro id c hc
      obtain ⟨hid, z, hz⟩ := hx.chunk id c hc
      refine ⟨hid, ?_⟩
      show ∃ z, (x.d.handles.insert k _)[c.handle]? = _
      rw [OrdMap.getElem?_insert]
      by_cases heq : c.handle = k
      · rw [heq, hk] at hz
        cases hz
        exact ⟨y, if_pos heq⟩
      · exact ⟨z, by rw [if_neg heq, hz]⟩
    · intro h p' hp'
      have hp' : (x.d.handles.insert k { p with data := y })[h]? = some p' := hp'
      rw [OrdMap.getElem?_insert] at hp'
      by_cases heq : h = k
      · rw [heq]
        exact hx.handle k p hk
      · rw [if_neg heq] at hp'
        exact hx.handle h p' hp'

/-- Steps in which the driver failed no call late keep the records true. -/
theorem reached_sound {ok : Managed β → ManagerCall → Bool → Prop}
    (hok : ∀ (x : Managed β) (c : ManagerCall) (late : Bool), ok x c late → x.CanCreate c ∧ (fails = true → late = false))
    (h : x.Reached fails ok) : x.Sound := by
  induction h with
  | made h => exact made_sound h
  | call h hs hk ih =>
    obtain ⟨hid, hlate⟩ := hok _ _ _ hk
    have hstep := step_cases ih hid hs
    cases hstep with
    | done h => exact h.sound
    | refused h hno =>
      rw [h]
      exact ih
    | broken h hfails => exact nomatch hlate hfails
  | kernel h k y ih => exact sound_write ih k y

/-! ## Steps that happen -/

/-- A call that is accepted can be answered. -/
theorem cu_runs {c : CuCall} {v : BitVec 64} (y : β) (hacc : w.d.Accepts c) (hv : w.d.Gives c v) :
    Prog.Runs (Cuda.watched β fails) ((cu c).run m) w (.ok v, m) { w with d := w.d.after c v y, fresh := false } := by
  have hanswer : (Cuda.watched β fails).answers (.cu c) w (.ok v) { w with d := w.d.after c v y, fresh := false } :=
    ⟨hacc, hv, y, rfl⟩
  exact runs_seq (runs_call hanswer) (.ret _ _)

/-- Where calls may fail, it can throw. -/
theorem cu_throws {c : CuCall} (e : CuError) :
    Prog.Runs (Cuda.watched β true) ((cu c).run m) w (.error (.cu e), m) { w with fresh := false, late := w.late || !w.fresh } := by
  have hanswer : (Cuda.watched β true).answers (.cu c) w (.error e) { w with fresh := false, late := w.late || !w.fresh } :=
    ⟨.inl rfl, rfl⟩
  exact runs_seq (runs_call hanswer) (.ret _ _)

/-- A check that holds passes. -/
theorem require_runs {c : Prop} [Decidable c] {f : Fault} (h : c) :
    Prog.Runs (Cuda.watched β fails) ((require c f).run m) w (.ok (), m) w := by
  unfold require
  rw [if_pos h]
  exact .ret _ _

/-- The chunk of a good token is found. -/
theorem chunkOf_runs {c : ManagedChunk} {what : String} (hv : t.valid = true) (ht : t.owner = m.serial) (hc : m.chunks[t.id]? = some c) :
    Prog.Runs (Cuda.watched β fails) ((chunkOf t what).run m) w (.ok c, m) w := by
  refine runs_seq (require_runs hv) (runs_seq runs_get (runs_seq (require_runs ht) ?_))
  simp only [hc]
  exact .ret _ _

/-- `reserve` can return what the driver gives. -/
theorem reserve_step {size : Size} {v : BitVec 64} (y : β) (hv : x.d.Gives (.reserve (x.m.roundUp size) x.m.gran) v) :
    x.Step fails (.reserve size) (.ok v) ⟨{ x.m with reservations := x.m.reservations.insert v (x.m.roundUp size) },
      { x.d with reservations := x.d.reservations.insert v (x.m.roundUp size) }⟩ false := by
  refine ⟨⟨x.d.after (.reserve (x.m.roundUp size) x.m.gran) v y, false, false⟩, ?_, rfl, rfl⟩
  exact runs_seq runs_get (runs_seq (cu_runs (w := { d := x.d }) y hv.1.1 hv) (runs_seq runs_modify runs_pure))

/-- The driver has no range. -/
theorem reserve_step_refused {size : Size} (e : CuError) : x.Step true (.reserve size) (.error (.cu e)) x false :=
  ⟨⟨x.d, false, false⟩, runs_seq runs_get (runs_throw (cu_throws e)), rfl, rfl⟩

/-- `create` can return a token. -/
theorem create_step {size : Size} {l : Loc} {v : BitVec 64} (y : β) (hpos : size > 0) (hround : x.m.roundUp size ≠ 0)
    (hv : x.d.handles[v]? = none) :
    x.Step fails (.create size l) (.ok ⟨x.m.serial, x.m.nextId⟩) ⟨{ x.m with
      nextId := x.m.nextId + 1
      chunks := x.m.chunks.insert x.m.nextId ⟨x.m.nextId, x.m.roundUp size, l, v, 0⟩ },
      { x.d with handles := x.d.handles.insert v ⟨x.m.roundUp size, l, y⟩ }⟩ false := by
  refine ⟨⟨x.d.after (.create (x.m.roundUp size) (x.m.prop l)) v y, false, false⟩, ?_, ?_, rfl⟩
  · exact runs_seq (require_runs hpos) (runs_seq runs_get (runs_seq (cu_runs (w := { d := x.d }) y hround hv)
      (runs_seq runs_modify (runs_seq runs_modify runs_pure))))
  · show { x.d with handles := x.d.handles.insert v ⟨x.m.roundUp size, (x.m.prop l).loc, y⟩ } = _
    rw [prop_loc]

/-- Where the model allows a mapping, the manager makes it. -/
theorem mapsAt_of_allows (hx : x.Sound) {va : Ptr} (hallow : x.m.abs.Allows (.map t va)) : x.MapsAt t va := by
  obtain ⟨ch, hl, hum, hal, hin, hun⟩ := hallow
  have ht : t.owner = x.m.serial := by
    by_contra ht
    exact nomatch hl.symm.trans (if_neg ht)
  obtain ⟨c, hc, rfl⟩ := Option.map_eq_some_iff.1 ((live_of_token ht).symm.trans hl)
  have hv : t.valid = true := by
    unfold ChunkToken.valid
    rw [ht]
    exact bne_iff_ne.2 hx.serial
  have hm : c.mapped = false := by
    cases hm : c.mapped with
    | false => rfl
    | true => exact nomatch (abs_mapped hm).symm.trans hum
  exact ⟨hv, ht, c, hc, hm, hal, insideReservation_of_inside hx (hx.size _ _ hc) hin, accepts_of_allows hx hc hin hun⟩

/-- The checks of `map` pass; then the driver maps and may fail to give access. -/
theorem map_runs {c : ManagedChunk} {va : Ptr} {r : Except Fault Ptr} {m' : Manager} {w' : Watched β} (y : β)
    (hc : x.m.chunks[t.id]? = some c) (h : x.MapsAt t va)
    (hrest : Prog.Runs (Cuda.watched β fails) ((do
      grant va c.size
      modify fun m => m.setChunk t { c with va }
      pure va : ManagerM Ptr).run x.m)
      ⟨{ x.d with mappings := x.d.mappings.insert va ⟨c.size, c.handle, false⟩ }, false, false⟩ (r, m') w') :
    Prog.Runs (Cuda.watched β fails) ((map t va).run x.m) { d := x.d } (r, m') w' := by
  obtain ⟨hv, ht, c', hc', hm, hal, hin, hacc⟩ := h
  cases hc.symm.trans hc'
  refine runs_seq (chunkOf_runs hv ht hc) (runs_seq (require_runs hm) (runs_seq runs_get ?_))
  exact runs_seq (require_runs hal) (runs_seq (require_runs hin) (runs_seq (cu_runs (v := 0) y hacc trivial) hrest))

/-- `map` can return where the chunk may be mapped. -/
theorem map_step {c : ManagedChunk} {va : Ptr} (y : β) (hc : x.m.chunks[t.id]? = some c) (h : x.MapsAt t va) :
    x.Step fails (.map t va) (.ok va) ⟨x.m.setChunk t { c with va },
      { x.d with mappings := x.d.mappings.insert va ⟨c.size, c.handle, true⟩ }⟩ false := by
  have hmp : (x.d.mappings.insert va ⟨c.size, c.handle, false⟩)[va]? = some ⟨c.size, c.handle, false⟩ := by
    rw [OrdMap.getElem?_insert, if_pos rfl]
  have hafter : Cuda.after { x.d with mappings := x.d.mappings.insert va ⟨c.size, c.handle, false⟩ } (.setAccess va c.size x.m.device) 0 y =
      { x.d with mappings := x.d.mappings.insert va ⟨c.size, c.handle, true⟩ } := by
    unfold Cuda.after
    simp only [hmp, OrdMap.insert_insert]
  refine ⟨⟨Cuda.after { x.d with mappings := x.d.mappings.insert va ⟨c.size, c.handle, false⟩ } (.setAccess va c.size x.m.device) 0 y,
    false, false⟩, map_runs y hc h ?_, hafter, rfl⟩
  exact runs_seq (runs_seq runs_get (runs_seq (cu_runs (v := 0) y ⟨_, hmp, rfl⟩ trivial) runs_pure)) (runs_seq runs_modify runs_pure)

/-- The device gets no access: the range stays mapped, and the chunk is recorded as unmapped. -/
theorem map_step_broken {c : ManagedChunk} {va : Ptr} (y : β) (e : CuError) (hc : x.m.chunks[t.id]? = some c) (h : x.MapsAt t va) :
    x.Step true (.map t va) (.error (.cu e)) ⟨x.m,
      { x.d with mappings := x.d.mappings.insert va ⟨c.size, c.handle, false⟩ }⟩ true := by
  refine ⟨⟨_, false, true⟩, map_runs y hc h ?_, rfl, rfl⟩
  exact runs_throw (runs_seq runs_get (runs_throw (cu_throws e)))

/-! ## Every call ends -/

/-- Code that only makes calls of the driver that are answered, from any state. -/
def Answered {α : Type} (y : ManagerM α) : Prop :=
  ∀ (m : Manager) (w : Watched β), wp (Cuda.watched β false).live y (fun _ _ _ => True) (fun _ _ _ => True) m w

/-- Sequences of answered code are answered. -/
theorem answered_bind {α γ : Type} {y : ManagerM α} {k : α → ManagerM γ} (hy : Answered (β := β) y)
    (hk : ∀ a : α, Answered (β := β) (k a)) : Answered (β := β) (y >>= k) := by
  intro m w
  exact wp_seq (hy m w) fun a m' w' _ => hk a m' w'

theorem answered_pure {α : Type} (a : α) : Answered (β := β) (pure a) := fun _ _ => trivial

theorem answered_get : Answered (β := β) (get : ManagerM Manager) := fun _ _ => trivial

theorem answered_modify {g : Manager → Manager} : Answered (β := β) (modify g : ManagerM PUnit) := fun _ _ => trivial

/-- So is a check, passed or not. -/
theorem answered_require {c : Prop} [Decidable c] {f : Fault} : Answered (β := β) (require c f) := by
  intro m w
  exact require_wp (fun _ => trivial) fun _ => trivial

/-- So is looking a token up. -/
theorem answered_chunkOf {t : ChunkToken} {what : String} : Answered (β := β) (chunkOf t what) := by
  refine answered_bind answered_require fun _ => answered_bind answered_get fun m => answered_bind answered_require fun _ => ?_
  cases m.chunks[t.id]? with
  | none => exact fun _ _ => trivial
  | some c => exact answered_pure c

/-- A call that the driver has an answer for, if it accepts it. -/
theorem cu_live [Inhabited β] {c : CuCall} {Q : BitVec 64 → Manager → Watched β → Prop} {E : Fault → Manager → Watched β → Prop}
    (hsome : w.d.Accepts c → ∃ v, w.d.Gives c v)
    (hok : ∀ (v : BitVec 64) (y : β), w.d.Gives c v → Q v m { w with d := w.d.after c v y, fresh := false })
    (hfail : ∀ (e : CuError) (w' : Watched β), E (.cu e) m w') : wp (Cuda.watched β false).live (cu c) Q E m w := by
  unfold cu
  rw [wp_bind, wp_call]
  refine ⟨?_, ?_⟩
  · by_cases hacc : w.d.Accepts c
    · obtain ⟨v, hv⟩ := hsome hacc
      have hanswer : (Cuda.watched β false).answers (.cu c) w (.ok v) { w with d := w.d.after c v default, fresh := false } :=
        ⟨hacc, hv, default, rfl⟩
      exact ⟨_, _, hanswer⟩
    · have hanswer : (Cuda.watched β false).answers (.cu c) w (.error .outOfMemory) { w with fresh := false, late := w.late || !w.fresh } :=
        ⟨.inr hacc, rfl⟩
      exact ⟨_, _, hanswer⟩
  · intro r w' h
    cases r with
    | ok v =>
      obtain ⟨-, hv, y, rfl⟩ := h
      exact hok v y hv
    | error e => exact hfail e w'

/-- A call that does not ask for anything new. -/
theorem answered_cu [Inhabited β] {c : CuCall} (h : ∀ d : Cuda β, d.Gives c 0) : Answered (β := β) (cu c) := by
  intro m w
  exact cu_live (fun _ => ⟨0, h w.d⟩) (fun _ _ _ => trivial) fun _ _ => trivial

/-- So is giving access to a range. -/
theorem answered_grant [Inhabited β] {va : Ptr} {size : Size} : Answered (β := β) (grant va size) :=
  answered_bind answered_get fun _ => answered_bind (answered_cu fun _ => trivial) fun _ => answered_pure _

/-- So is the copy through a scratch range. -/
theorem answered_copyTo [Inhabited β] {c : ManagedChunk} {scratch : Ptr} {nh : Handle} : Answered (β := β) (copyTo c scratch nh) :=
  answered_bind (answered_cu fun _ => trivial) fun _ => answered_bind answered_grant fun _ =>
    answered_bind (answered_cu fun _ => trivial) fun _ => answered_bind (answered_cu fun _ => trivial) fun _ => answered_pure _

/-- So is the exchange of the handles. -/
theorem answered_swap [Inhabited β] {c : ManagedChunk} {nh : Handle} : Answered (β := β) (swap c nh) :=
  answered_bind (answered_cu fun _ => trivial) fun _ => answered_bind (answered_cu fun _ => trivial) fun _ =>
    answered_bind (answered_cu fun _ => trivial) fun _ => answered_grant

theorem answered_map [Inhabited β] {va : Ptr} : Answered (β := β) (map t va) :=
  answered_bind answered_chunkOf fun _ => answered_bind answered_require fun _ => answered_bind answered_get fun _ =>
    answered_bind answered_require fun _ => answered_bind answered_require fun _ => answered_bind (answered_cu fun _ => trivial) fun _ =>
      answered_bind answered_grant fun _ => answered_bind answered_modify fun _ => answered_pure _

theorem answered_unmap [Inhabited β] : Answered (β := β) (unmap t) :=
  answered_bind answered_chunkOf fun _ => answered_bind answered_require fun _ => answered_bind (answered_cu fun _ => trivial) fun _ =>
    answered_bind answered_modify fun _ => answered_pure _

theorem answered_release [Inhabited β] : Answered (β := β) (release t) :=
  answered_bind answered_chunkOf fun _ => answered_bind answered_require fun _ => answered_bind (answered_cu fun _ => trivial) fun _ =>
    answered_bind answered_modify fun _ => answered_pure _

theorem answered_free [Inhabited β] {va : Ptr} : Answered (β := β) (free va) := by
  refine answered_bind answered_get fun m => ?_
  cases m.reservations[va]? with
  | none => exact fun _ _ => trivial
  | some size =>
    dsimp only
    cases m.mappedInside va size with
    | some p => exact fun _ _ => trivial
    | none => exact answered_bind (answered_cu fun _ => trivial) fun _ => answered_bind answered_modify fun _ => answered_pure _

theorem answered_va : Answered (β := β) (va t) :=
  answered_bind answered_chunkOf fun _ => answered_bind answered_require fun _ => answered_pure _

/-- `remap` ends when the driver has room for a handle and a scratch range. -/
theorem remap_ends [Inhabited β] (hx : x.Sound) {target : Loc} (hroom : x.Room (.remap t target)) :
    wp (Cuda.watched β false).live (remap t target) (fun _ _ _ => True) (fun _ _ _ => True) x.m { d := x.d } := by
  obtain ⟨hhandle, hrange⟩ := hroom
  refine mappedChunk_wp hx.serial (fun c ht hc hm => ?_) fun _ _ => trivial
  rw [wp_ite]
  refine ⟨fun _ => trivial, fun _ => ?_⟩
  rw [wp_bind, wp_get, wp_bind]
  refine cu_live (fun _ => hhandle) (fun nh y hv => ?_) fun _ _ => trivial
  rw [wp_bind]
  refine cu_live (fun _ => hrange c hc) (fun scratch y' hs => ?_) fun _ _ => trivial
  refine answered_bind answered_copyTo (fun _ => answered_bind answered_swap fun _ => ?_) _ _
  exact answered_bind (answered_cu fun _ => trivial) fun _ => answered_bind (answered_cu fun _ => trivial) fun _ =>
    answered_bind answered_modify fun _ => answered_pure _

/-- A call for which the driver has room ends. -/
theorem exists_step [Inhabited β] (hx : x.Sound) (c : ManagerCall) (hroom : x.Room c) :
    ∃ (r : Except Fault c.Result) (x' : Managed β) (late : Bool), x.Step false c r x' late := by
  have hwp : wp (Cuda.watched β false).live c.program (fun _ _ _ => True) (fun _ _ _ => True) x.m { d := x.d } := by
    cases c with
    | reserve size =>
      unfold ManagerCall.program reserve
      rw [wp_bind, wp_get, wp_bind]
      exact cu_live hroom (fun _ _ _ => trivial) fun _ _ => trivial
    | create size l =>
      unfold ManagerCall.program create
      rw [wp_bind]
      refine require_wp (fun _ => ?_) fun _ => trivial
      rw [wp_bind, wp_get, wp_bind]
      exact cu_live (fun _ => hroom) (fun _ _ _ => trivial) fun _ _ => trivial
    | map t va => exact answered_map _ _
    | unmap t => exact answered_unmap _ _
    | remap t target => exact remap_ends hx hroom
    | release t => exact answered_release _ _
    | free va => exact answered_free _ _
    | va t => exact answered_va _ _
    | loc t => exact answered_bind answered_chunkOf (fun _ => answered_pure _) _ _
    | info t => exact answered_bind answered_chunkOf (fun _ => answered_pure _) _ _
  obtain ⟨⟨r, m'⟩, w', hruns, -⟩ := Prog.exists_runs_of_live hwp
  exact ⟨r, ⟨m', w'.d⟩, w'.late, w', hruns, rfl, rfl⟩

end ManagerAux

end Vmem
