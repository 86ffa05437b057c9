import Vmem.Counts

/-!
# The books of the broker

The counts a tenant should have, recomputed from its record: the context overhead once it said `Hello`, the sizes of its
chunks, and the size of the chunk a granted move holds a second place for. The handlers keep the counts incrementally; each of
them moves a count by exactly what the books move. Sizes enter through a map `φ` into an additive monoid: the identity for
statements modulo 2^64, `BitVec.toNat` for true totals.
-/

namespace Vmem

/-- A location is the side of its own field. -/
@[simp] theorem Loc.side_field (l : Loc) : l.field.side = l := by cases l <;> rfl

/-- The books spelled out. -/
theorem Tenant.owed_eq {M : Type*} [AddCommMonoid M] (φ : Size → M) (ov : Size) (t : Tenant) (l : Loc) :
    t.owed φ ov l = (if t.hello = true ∧ l = .device then φ ov else 0) + OrdMap.total t.chunks (fun _ c => c.share φ l) +
      match t.moving with
      | none => 0
      | some mv =>
        match t.chunks[mv.ptr]? with
        | none => 0
        | some c => if mv.target.side = l then φ c.size else 0 := rfl

/-- The books after a change that leaves the table and the move in flight. -/
theorem Tenant.owed_of_same {M : Type*} [AddCommMonoid M] {φ : Size → M} {ov : Size} {t t' : Tenant} {l : Loc}
    (hk : t'.chunks = t.chunks) (hm : t'.moving = t.moving) :
    t'.owed φ ov l = t'.overhead φ ov l + t.recorded φ l + t.reserved φ l := by
  simp only [Tenant.owed, Tenant.recorded, Tenant.reserved, hk, hm]

/-! ## What the accounting helpers touch -/

/-- The count that a field names is that of its side. -/
@[simp] theorem Tenant.usedBytes_eq (t : Tenant) (f : LocField) : t.usedBytes f = t.count f.side := by cases f <;> rfl

/-- The global count that a field names is that of its side. -/
@[simp] theorem Global.usedBytes_eq (g : Global) (f : LocField) : g.usedBytes f = g.count f.side := by cases f <;> rfl

/-- The limit that a field names is that of its side. -/
@[simp] theorem Tenant.limit_eq (t : Tenant) (f : LocField) : t.limit f = t.cap f.side := by cases f <;> rfl

/-- The global limit that a field names is that of its side. -/
@[simp] theorem Global.limit_eq (g : Global) (f : LocField) : g.limit f = g.cap f.side := by cases f <;> rfl

/-- Setting the count that a field names sets that of its side and no other. -/
@[simp] theorem Tenant.count_setUsed (t : Tenant) (f : LocField) (x : Size) (l : Loc) :
    (t.setUsed f x).count l = if f.side = l then x else t.count l := by
  cases f <;> cases l <;> rfl

/-- Setting the global count that a field names sets that of its side and no other. -/
@[simp] theorem Global.count_setUsed (g : Global) (f : LocField) (x : Size) (l : Loc) :
    (g.setUsed f x).count l = if f.side = l then x else g.count l := by
  cases f <;> cases l <;> rfl

/-- Every field of a tenant that no count update touches: all but the two counts. -/
def Tenant.rest (t : Tenant) : Tenant := { t with device := 0, host := 0 }

/-- Every field of the global state that no count update touches: the configuration. -/
def Global.rest (g : Global) : Global := { g with device := 0, host := 0 }

/-- Setting a count leaves everything else of the tenant. -/
@[simp] theorem Tenant.rest_setUsed (t : Tenant) (f : LocField) (x : Size) : (t.setUsed f x).rest = t.rest := by
  cases f <;> rfl

/-- Setting a global count leaves the limits and the overhead. -/
@[simp] theorem Global.rest_setUsed (g : Global) (f : LocField) (x : Size) : (g.setUsed f x).rest = g.rest := by
  cases f <;> rfl

/-- Tenants with the same counts and the same rest are equal. -/
theorem Tenant.ext_counts {t t' : Tenant} (hr : t.rest = t'.rest) (hc : ∀ l, t.count l = t'.count l) : t = t' := by
  have hd := hc .device
  have hh := hc .host
  cases t
  cases t'
  simp_all [Tenant.rest, Tenant.count]

/-- Global records with the same counts and the same rest are equal. -/
theorem Global.ext_counts {g g' : Global} (hr : g.rest = g'.rest) (hc : ∀ l, g.count l = g'.count l) : g = g' := by
  have hd := hc .device
  have hh := hc .host
  cases g
  cases g'
  simp_all [Global.rest, Global.count]

/-- Setting a count leaves the chunks, the move and the greeting. -/
@[simp] theorem Tenant.setUsed_chunks (t : Tenant) (f : LocField) (x : Size) : (t.setUsed f x).chunks = t.chunks := by
  cases f <;> rfl

@[simp] theorem Tenant.setUsed_moving (t : Tenant) (f : LocField) (x : Size) : (t.setUsed f x).moving = t.moving := by
  cases f <;> rfl

@[simp] theorem Tenant.setUsed_hello (t : Tenant) (f : LocField) (x : Size) : (t.setUsed f x).hello = t.hello := by
  cases f <;> rfl

namespace Work

variable (w : Work) (f : LocField) (s : Size) (add : Bool) (line : LogLine) (ptr : Ptr) (c : ChunkRec) (mv : Option Move)
  (l : Loc)

/-- A log line leaves the tenant, the counts and the flag. -/
@[simp] theorem say_t : (w.say line).t = w.t := rfl
@[simp] theorem say_g : (w.say line).g = w.g := rfl
@[simp] theorem say_wrapped : (w.say line).wrapped = w.wrapped := rfl

/-- So does the warning, which is one. -/
@[simp] theorem checkOverLimit_t : (checkOverLimit w f).t = w.t := by unfold checkOverLimit; split <;> rfl
@[simp] theorem checkOverLimit_g : (checkOverLimit w f).g = w.g := by unfold checkOverLimit; split <;> rfl
@[simp] theorem checkOverLimit_wrapped : (checkOverLimit w f).wrapped = w.wrapped := by
  unfold checkOverLimit; split <;> rfl

/-- A chunk is recorded under its address, and nothing else changes. -/
@[simp] theorem setChunk_chunks : (w.setChunk ptr c).t.chunks = w.t.chunks.insert ptr c := rfl
@[simp] theorem setChunk_moving : (w.setChunk ptr c).t.moving = w.t.moving := rfl
@[simp] theorem setChunk_hello : (w.setChunk ptr c).t.hello = w.t.hello := rfl
@[simp] theorem setChunk_count : (w.setChunk ptr c).t.count l = w.t.count l := by cases l <;> rfl
@[simp] theorem setChunk_g : (w.setChunk ptr c).g = w.g := rfl
@[simp] theorem setChunk_wrapped : (w.setChunk ptr c).wrapped = w.wrapped := rfl

/-- A chunk is forgotten under its address, and nothing else changes. -/
@[simp] theorem eraseChunk_chunks : (w.eraseChunk ptr).t.chunks = w.t.chunks.erase ptr := rfl
@[simp] theorem eraseChunk_moving : (w.eraseChunk ptr).t.moving = w.t.moving := rfl
@[simp] theorem eraseChunk_hello : (w.eraseChunk ptr).t.hello = w.t.hello := rfl
@[simp] theorem eraseChunk_count : (w.eraseChunk ptr).t.count l = w.t.count l := by cases l <;> rfl
@[simp] theorem eraseChunk_g : (w.eraseChunk ptr).g = w.g := rfl
@[simp] theorem eraseChunk_wrapped : (w.eraseChunk ptr).wrapped = w.wrapped := rfl

@[simp] theorem setMoving_chunks : (w.setMoving mv).t.chunks = w.t.chunks := rfl
/-- The move is the one that was set, and nothing else changes. -/
@[simp] theorem setMoving_moving : (w.setMoving mv).t.moving = mv := rfl
@[simp] theorem setMoving_hello : (w.setMoving mv).t.hello = w.t.hello := rfl
@[simp] theorem setMoving_count : (w.setMoving mv).t.count l = w.t.count l := by cases l <;> rfl
@[simp] theorem setMoving_g : (w.setMoving mv).g = w.g := rfl
@[simp] theorem setMoving_wrapped : (w.setMoving mv).wrapped = w.wrapped := rfl

/-- Counting leaves the chunks, the move and the greeting. -/
@[simp] theorem updateCount_chunks : (updateCount w f s add).t.chunks = w.t.chunks := by cases add <;> simp [updateCount]
@[simp] theorem updateCount_moving : (updateCount w f s add).t.moving = w.t.moving := by cases add <;> simp [updateCount]
@[simp] theorem updateCount_hello : (updateCount w f s add).t.hello = w.t.hello := by cases add <;> simp [updateCount]
/-- Counting only touches the counts of the tenant. -/
@[simp] theorem updateCount_rest : (updateCount w f s add).t.rest = w.t.rest := by cases add <;> simp [updateCount]
/-- Counting only touches the global counts. -/
@[simp] theorem updateCount_g_rest : (updateCount w f s add).g.rest = w.g.rest := by cases add <;> simp [updateCount]

/-- Adding bytes adds them to the tenant's count of their side. -/
@[simp] theorem updateCount_add_t : (updateCount w f s true).t.count l = w.t.count l + if f.side = l then s else 0 := by
  by_cases h : f.side = l
  · subst h; simp [updateCount]
  · simp [updateCount, h]

/-- Taking bytes off takes them off the tenant's count of their side. -/
@[simp] theorem updateCount_sub_t : (updateCount w f s false).t.count l = w.t.count l - if f.side = l then s else 0 := by
  by_cases h : f.side = l
  · subst h; simp [updateCount]
  · simp [updateCount, h]

/-- Adding bytes adds them to the global count of their side. -/
@[simp] theorem updateCount_add_g : (updateCount w f s true).g.count l = w.g.count l + if f.side = l then s else 0 := by
  by_cases h : f.side = l
  · subst h; simp [updateCount]
  · simp [updateCount, h]

/-- Taking bytes off takes them off the global count of their side. -/
@[simp] theorem updateCount_sub_g : (updateCount w f s false).g.count l = w.g.count l - if f.side = l then s else 0 := by
  by_cases h : f.side = l
  · subst h; simp [updateCount]
  · simp [updateCount, h]

/-- Adding is no subtraction that could go below zero. -/
@[simp] theorem updateCount_add_wrapped : (updateCount w f s true).wrapped = w.wrapped := rfl

/-- A subtraction goes below zero where either count is less than the bytes. -/
theorem updateCount_sub_wrapped : (updateCount w f s false).wrapped =
    (w.wrapped || decide (w.t.count f.side < s) || decide (w.g.count f.side < s)) := by
  simp [updateCount]

end Work

/-! ## What the handlers leave alone -/

/-- What every handler keeps: the tenant's identity and limits, the configuration, and the difference between the global and
the tenant's counts. So the global counts change by exactly what the tenant's own counts change. -/
structure Work.Keeps (w w' : Work) : Prop where
  balance : ∀ l, w'.g.count l - w'.t.count l = w.g.count l - w.t.count l
  config : w'.g.rest = w.g.rest
  pid : w'.t.pid = w.t.pid
  cap : w'.t.cap = w.t.cap

namespace Work.Keeps

/-- Nothing done keeps everything. -/
theorem refl (w : Work) : w.Keeps w := ⟨fun _ => rfl, rfl, rfl, rfl⟩

/-- What two pieces of work keep, both together keep. -/
theorem trans {w w' w'' : Work} (h : w.Keeps w') (h' : w'.Keeps w'') : w.Keeps w'' :=
  ⟨fun l => (h'.balance l).trans (h.balance l), h'.config.trans h.config, h'.pid.trans h.pid, h'.cap.trans h.cap⟩

/-- Counting keeps who the tenant is and what the limits are. -/
theorem updateCount (w : Work) (f : LocField) (s : Size) (add : Bool) : w.Keeps (updateCount w f s add) := by
  refine ⟨fun l => ?_, by simp, ?_, ?_⟩
  · cases add <;> simp
  · cases add <;> cases f <;> rfl
  · funext l
    cases add <;> cases f <;> cases l <;> rfl

theorem say (w : Work) (line : LogLine) : w.Keeps (w.say line) := ⟨fun _ => rfl, rfl, rfl, rfl⟩

theorem setChunk (w : Work) (ptr : Ptr) (c : ChunkRec) : w.Keeps (w.setChunk ptr c) :=
  ⟨fun l => by simp, rfl, rfl, by funext l; cases l <;> rfl⟩

theorem eraseChunk (w : Work) (ptr : Ptr) : w.Keeps (w.eraseChunk ptr) :=
  ⟨fun l => by simp, rfl, rfl, by funext l; cases l <;> rfl⟩

/-- So does starting or ending a move. -/
theorem setMoving (w : Work) (mv : Option Move) : w.Keeps (w.setMoving mv) :=
  ⟨fun l => by simp, rfl, rfl, by funext l; cases l <;> rfl⟩

theorem checkOverLimit (w : Work) (f : LocField) : w.Keeps (checkOverLimit w f) := by
  unfold Vmem.checkOverLimit
  split
  · exact say _ _
  · exact refl _

end Work.Keeps

end Vmem
