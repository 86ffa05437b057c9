import Vmem.Broker

/-!
# What the records say

The counts and the limits of a record by place, the counts that a record should have, and the messages and events that are told apart by
what they do to them.
-/

namespace Vmem

/-! ## Counts and limits -/

/-- The place whose count a location field addresses: every value but `Device` is counted on the host. -/
def LocField.side : LocField → Loc
  | .device => .device
  | _ => .host

def Tenant.count (t : Tenant) : Loc → Size
  | .device => t.device
  | .host => t.host

def Global.count (g : Global) : Loc → Size
  | .device => g.device
  | .host => g.host

/-- The limit of a tenant at a place. -/
def Tenant.cap (t : Tenant) : Loc → Size
  | .device => t.vramLimit
  | .host => t.dramLimit

/-- The global limit at a place. -/
def Global.cap (g : Global) : Loc → Size
  | .device => g.vramLimit
  | .host => g.dramLimit

/-! ## What should be counted -/

section

variable {M : Type*} [AddCommMonoid M] (φ : Size → M)

/-- The share of a chunk in the books at a place. -/
def ChunkRec.share (c : ChunkRec) (l : Loc) : M := if c.loc.side = l then φ c.size else 0

/-- The bytes of the chunks recorded at a place. -/
def Tenant.recorded (t : Tenant) (l : Loc) : M := OrdMap.total t.chunks fun _ c => c.share φ l

/-- The bytes a granted move holds at its target. -/
def Tenant.reserved (t : Tenant) (l : Loc) : M :=
  match t.moving with
  | none => 0
  | some mv =>
    match t.chunks[mv.ptr]? with
    | none => 0
    | some c => if mv.target.side = l then φ c.size else 0

/-- The context overhead, counted on the device once the tenant said `Hello`. -/
def Tenant.overhead (ov : Size) (t : Tenant) (l : Loc) : M := if t.hello = true ∧ l = .device then φ ov else 0

/-- What a tenant's count at a place should be. -/
def Tenant.owed (ov : Size) (t : Tenant) (l : Loc) : M := t.overhead φ ov l + t.recorded φ l + t.reserved φ l

end

/-- The record of a tenant agrees with itself: its counts are what the books say, modulo 2^64, and a move in flight names a
tracked chunk. -/
structure Tenant.Sound (ov : Size) (t : Tenant) : Prop where
  counts : ∀ l, t.count l = t.owed id ov l
  tracked : ∀ mv, t.moving = some mv → ∃ c, t.chunks[mv.ptr]? = some c

/-- The count of a descriptor's tenant at a place; a descriptor that is not connected counts nothing. -/
def Broker.countAt (b : Broker) (fd : Fd) (l : Loc) : Size := (b.tenants[fd]?.map (·.count l)).getD 0

/-- The global counts are the sums over the connected tenants, modulo 2^64. -/
def Broker.Conserved (b : Broker) : Prop := ∀ l, b.g.count l = OrdMap.total b.tenants fun _ t => t.count l

/-- Every record of the broker agrees with itself. -/
def Broker.Sound (b : Broker) : Prop := ∀ (fd : Fd) (t : Tenant), b.tenants[fd]? = some t → t.Sound b.g.ctxOverhead

/-- The true total of what the broker records at a place, over all tenants: no wrap-around. -/
def Broker.owed (b : Broker) (l : Loc) : ℕ := OrdMap.total b.tenants fun _ t => t.owed BitVec.toNat b.g.ctxOverhead l

/-- The connected tenants that said `Hello`. -/
def Broker.greeted (b : Broker) : ℕ := OrdMap.total b.tenants fun _ t => if t.hello = true then 1 else 0

/-! ## Messages -/

/-- There is room for `size` more bytes at `l` under both limits, as natural numbers. -/
def Tenant.Fits (t : Tenant) (g : Global) (l : LocField) (size : Size) : Prop :=
  (t.usedBytes l).toNat + size.toNat ≤ (t.limit l).toNat ∧ (g.usedBytes l).toNat + size.toNat ≤ (g.limit l).toNat

instance (t : Tenant) (g : Global) (l : LocField) (size : Size) : Decidable (t.Fits g l size) :=
  inferInstanceAs (Decidable (_ ∧ _))

/-- A sum of use and `size` reaches 2^64, and what is left of the sums is under both limits. -/
def Tenant.Wraps (t : Tenant) (g : Global) (l : LocField) (size : Size) : Prop :=
  (2 ^ 64 ≤ (t.usedBytes l).toNat + size.toNat ∨ 2 ^ 64 ≤ (g.usedBytes l).toNat + size.toNat) ∧
    ((t.usedBytes l).toNat + size.toNat) % 2 ^ 64 ≤ (t.limit l).toNat ∧
    ((g.usedBytes l).toNat + size.toNat) % 2 ^ 64 ≤ (g.limit l).toNat

instance (t : Tenant) (g : Global) (l : LocField) (size : Size) : Decidable (t.Wraps g l size) :=
  inferInstanceAs (Decidable ((_ ∨ _) ∧ _ ∧ _))

/-- The answer to an `Alloc` that the limits call for: on the device if it fits there, else on the host if it fits there, else
none. The location of a refusal is the caller's default. -/
def Tenant.allocAnswer (t : Tenant) (g : Global) (size : Size) : Reply :=
  if t.Fits g .device size then ⟨.ok, .device⟩
  else if t.Fits g .host size then ⟨.ok, .host⟩
  else ⟨.noMemory, .host⟩

/-- The messages the broker refuses or ignores: an `Alloc` of a held pointer or without room, a `Move` it does not grant, a
message for a pointer that is not tracked, an `AllocFail` for a host chunk, a repeated `Hello`, an unknown type. -/
def Tenant.Ignores (t : Tenant) (g : Global) (m : Msg) : Prop :=
  match m.type with
  | .hello => t.hello = true
  | .alloc => m.ptr ∈ t.chunks ∨ (¬fitsLimit { t, g } .device m.size ∧ ¬fitsLimit { t, g } .host m.size)
  | .allocFail => ∀ c ∈ t.chunks[m.ptr]?, c.loc ≠ .device
  | .move => ∀ c ∈ t.chunks[m.ptr]?, c.loc ≠ m.loc ∧ (t.moving ≠ none ∨ ¬fitsLimit { t, g } m.loc c.size)
  | .moveDone => m.ptr ∉ t.chunks
  | .resync => False
  | .free => m.ptr ∉ t.chunks
  | .other _ => True

/-- The messages no client should send: those for which the broker logs an unknown or a held pointer, a chunk that is on host
already, a second move, a `MoveDone` that was not granted, a `Free` of a chunk that is moving, or an unknown type; a `Move` to
where the chunk is; and a second `Hello`. -/
def Tenant.Misuses (t : Tenant) (m : Msg) : Prop :=
  match m.type with
  | .hello => t.hello = true
  | .alloc => m.ptr ∈ t.chunks
  | .allocFail => ∀ c ∈ t.chunks[m.ptr]?, c.loc ≠ .device
  | .free => m.ptr ∉ t.chunks ∨ ∃ mv ∈ t.moving, mv.ptr = m.ptr
  | .move => m.ptr ∉ t.chunks ∨ t.moving ≠ none ∨ ∃ c ∈ t.chunks[m.ptr]?, c.loc = m.loc
  | .moveDone => m.ptr ∉ t.chunks ∨ ∀ mv ∈ t.moving, mv.ptr ≠ m.ptr
  | .resync => m.ptr ∈ t.chunks
  | .other _ => True

/-- A report that the broker cannot refuse: an `AllocFail`, a `Resync`, or a `MoveDone` that was not granted. -/
def Tenant.Reports (t : Tenant) (m : Msg) : Prop :=
  m.type = .allocFail ∨ m.type = .resync ∨ (m.type = .moveDone ∧ ∀ mv, t.moving = some mv → mv.ptr ≠ m.ptr)

/-- A `Resync` of the chunk that is moving reports the size on record. -/
def Tenant.ResyncKeepsSize (t : Tenant) (m : Msg) : Prop :=
  m.type = .resync → ∀ mv ∈ t.moving, mv.ptr = m.ptr → ∀ c ∈ t.chunks[m.ptr]?, c.size = m.size

instance (t : Tenant) (m : Msg) : Decidable (t.ResyncKeepsSize m) :=
  inferInstanceAs (Decidable (m.type = .resync → ∀ mv ∈ t.moving, mv.ptr = m.ptr → ∀ c ∈ t.chunks[m.ptr]?, c.size = m.size))

/-- A `MoveDone` of a granted move reports the move's target or the place that is on record. -/
def Tenant.LandsKnown (t : Tenant) (m : Msg) : Prop :=
  m.type = .moveDone → ∀ mv ∈ t.moving, mv.ptr = m.ptr → ∀ c ∈ t.chunks[m.ptr]?,
    m.loc.side = mv.target.side ∨ m.loc.side = c.loc.side

instance (t : Tenant) (m : Msg) : Decidable (t.LandsKnown m) :=
  inferInstanceAs (Decidable (m.type = .moveDone → ∀ mv ∈ t.moving, mv.ptr = m.ptr → ∀ c ∈ t.chunks[m.ptr]?,
    m.loc.side = mv.target.side ∨ m.loc.side = c.loc.side))

/-- The record after a message without a reply. -/
def Tenant.applied (ov : Size) (t : Tenant) (m : Msg) : Tenant := (handle { t, g := { ctxOverhead := ov } } m).1.t

/-- The bytes that an `AllocFail` moves to the host. -/
def Tenant.allocFailBytes (t : Tenant) (m : Msg) : ℕ :=
  if m.type = .allocFail then
    match t.chunks[m.ptr]? with
    | none => 0
    | some c => c.size.toNat
  else 0

/-- The bytes that the `AllocFail`s of a queue will move to the host. -/
def Tenant.allocFails (ov : Size) : Tenant → List Msg → ℕ
  | _, [] => 0
  | t, m :: ms => t.allocFailBytes m + (t.applied ov m).allocFails ov ms

/-! ## Events and runs -/

/-- An event that is not an `Alloc` or a `Move`: nothing it does depends on the room that is left. -/
def Event.IsReport : Event → Prop
  | .connect _ _ => True
  | .readable _ r => r.n = sizeofMsg → r.m.type ≠ .alloc ∧ r.m.type ≠ .move

/-- The report of a live chunk. -/
def resyncEvent (fd : Fd) (p : Ptr × ChunkRec) : Event :=
  .msg fd { type := .resync, ptr := p.1, size := p.2.size, loc := p.2.loc }

/-- What a tenant with the chunks `M` sends to a restarted broker: a connection, `Hello`, and one `Resync` per chunk in some
order. -/
def Rejoins (fd : Fd) (M : OrdMap Ptr ChunkRec) (es : List Event) : Prop :=
  ∃ (pid : Nat) (name : List UInt8) (cs : List (Ptr × ChunkRec)), cs.Perm M.toList ∧
    es = .connect fd pid :: .msg fd { type := .hello, name := name } :: cs.map (resyncEvent fd)

/-- The event is no `Resync` of a moving chunk with a size other than the one on record. -/
def Broker.KeepsMovingSize (b : Broker) : Event → Prop
  | .connect _ _ => True
  | .readable fd r => r.n = sizeofMsg → ∀ t ∈ b.tenants[fd]?, t.ResyncKeepsSize r.m

instance (b : Broker) (e : Event) : Decidable (b.KeepsMovingSize e) :=
  match e with
  | .connect _ _ => inferInstanceAs (Decidable True)
  | .readable fd r =>
    inferInstanceAs (Decidable (r.n = sizeofMsg → ∀ t ∈ b.tenants[fd]?, t.ResyncKeepsSize r.m))

/-- The event is no `MoveDone` of a granted move that reports a place other than the target and the place on record. -/
def Broker.LandsKnown (b : Broker) : Event → Prop
  | .connect _ _ => True
  | .readable fd r => r.n = sizeofMsg → ∀ t ∈ b.tenants[fd]?, t.LandsKnown r.m

instance (b : Broker) (e : Event) : Decidable (b.LandsKnown e) :=
  match e with
  | .connect _ _ => inferInstanceAs (Decidable True)
  | .readable fd r => inferInstanceAs (Decidable (r.n = sizeofMsg → ∀ t ∈ b.tenants[fd]?, t.LandsKnown r.m))

/-- The event takes the count of a tenant or the global count at a place over its limit. -/
def Broker.Pushes (b : Broker) (e : Event) (l : Loc) : Prop :=
  (b.g.count l ≤ b.g.cap l ∧ (b.step e).b.g.cap l < (b.step e).b.g.count l) ∨
    ∃ (fd : Fd) (t t' : Tenant), b.tenants[fd]? = some t ∧ (b.step e).b.tenants[fd]? = some t' ∧ t.count l ≤ t.cap l ∧
      t'.cap l < t'.count l

/-- Runs in which every event meets a condition on the state before it. -/
inductive Broker.Reached (cfg : Global) (ok : Broker → Event → Prop) : Broker → Prop
  | start : Reached cfg ok (.start cfg)
  | step {b : Broker} {e : Event} : Reached cfg ok b → ok b e → Reached cfg ok (b.step e).b

end Vmem
