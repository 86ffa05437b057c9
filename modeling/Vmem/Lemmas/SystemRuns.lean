import Vmem.System

/-!
# The system, run

Processes and the broker that take their turns in a given order, on a driver that numbers what it gives (`Sys.play`). What is played is
reached (`reached_play`).
-/

namespace Vmem

/-! ## A process -/

instance (g : Gpu) (c : CuCall) (v : BitVec 64) : Decidable (g.Fresh c v) :=
  match c with
  | .reserve _ _ => inferInstanceAs (Decidable (g.reserved[v]? = none))
  | .create _ _ => inferInstanceAs (Decidable (g.copies[v]? = none))
  | .granularity _ | .addressFree _ _ | .release _ | .map _ _ _ | .setAccess _ _ _ | .unmap _ _ | .memcpyDtoD _ _ _ | .synchronize =>
    inferInstanceAs (Decidable True)

/-- What the driver gives: it numbers the ranges and the handles. -/
def Gpu.give (g : Gpu) : CuCall → BitVec 64
  | .granularity _ => 2
  | .reserve _ _ => 64 * (BitVec.ofNat 64 g.reserved.size + 1)
  | .create _ _ => BitVec.ofNat 64 g.copies.size + 7
  | _ => 0

/-- The answer to a call of process `i`, if it need not wait for one. The driver has memory where `room` says so, and nothing else fails. -/
def Client.respond (room : Loc → Bool) (conns : OrdMap ConnId Conn) (i : Nat) (cl : Client) :
    (o : Op) → Option (o.Answer × Client × OrdMap ConnId Conn)
  | .cu (.create size p) =>
    if room p.loc = false then some (.error .outOfMemory, cl, conns)
    else if cl.gpu.Fresh (.create size p) (cl.gpu.give (.create size p)) then
      some (.ok (cl.gpu.give (.create size p)), { cl with gpu := cl.gpu.after (.create size p) (cl.gpu.give (.create size p)) }, conns)
    else none
  | .cu c => if cl.gpu.Fresh c (cl.gpu.give c) then some (.ok (cl.gpu.give c), { cl with gpu := cl.gpu.after c (cl.gpu.give c) }, conns) else none
  | .drop c => some ((), { cl with gpu := cl.gpu.after c 0 }, conns)
  | .cudaSetDevice _ => some (true, cl, conns)
  | .cudaFreeNull => some (true, cl, conns)
  | .attribute .hostNumaId _ => some (0, cl, conns)
  | .attribute _ _ => some (1, cl, conns)
  | .socket => if cl.socks[3]? = none then some (.ok 3, { cl with socks := cl.socks.insert 3 none }, conns) else none
  | .setsockopt _ _ => some (none, cl, conns)
  | .connect fd _ =>
    if cl.socks[fd]? = some none ∧ conns[conns.size + 4]? = none then
      some (none, { cl with socks := cl.socks.insert fd (some (conns.size + 4)) },
        conns.insert (conns.size + 4) { owner := i, whole := cl.gpu.copies.isEmpty })
    else none
  | .close fd => some ((), { cl with socks := cl.socks.erase fd }, shutConn conns cl.socks[fd]?)
  | .send (some f) m =>
    match cl.socks[f]? with
    | some (some n) => conns[n]?.map fun c => (none, cl, conns.insert n (c.push m))
    | _ => none
  | .recv (some f) =>
    match cl.socks[f]? with
    | some (some n) => conns[n]?.bind fun c =>
      match c.down with
      | [] => none
      | rep :: rest => some (.reply rep, cl, conns.insert n { c with down := rest })
    | _ => none
  | _ => none

/-! ## Turns -/

/-- A turn: a process starts, takes the next call of its program, or goes on in it by one call of its own; the broker accepts a connection or
reads a message of it. -/
inductive Turn
  | join (i : Nat) (c : BackendConfig) (invocation : List UInt8)
  | call (i : Nat) (c : ClientCall)
  | go (i : Nat)
  | serve (n : ConnId)

/-- One turn, and the step that it is. -/
def Sys.turn (room : Loc → Bool) (s : Sys) : Turn → Option (Label × Sys)
  | .join i c invocation =>
    if s.clients[i]? = none then
      some (.join i c invocation, { s with clients := s.clients.insert i { run := some (opening c invocation) } })
    else none
  | .call i c =>
    match s.clients[i]? with
    | none => none
    | some cl =>
      if cl.run.isNone = true then
        (c.program cl.held cl.b).map fun p => (.call i c, { s with clients := s.clients.insert i { cl with run := some p } })
      else none
  | .go i =>
    match s.clients[i]? with
    | none => none
    | some cl =>
      match cl.run with
      | none => none
      | some (.ret (held, b)) => some (.ret i, { s with clients := s.clients.insert i { cl with b, held, run := none } })
      | some (.op o k) => (cl.respond room s.conns i o).map fun x =>
        (.act i o x.1, { s with clients := s.clients.insert i { x.2.1 with run := some (k x.1) }, conns := x.2.2 })
  | .serve n =>
    match s.conns[n]? with
    | none => none
    | some c =>
      if c.gone = true then none
      else if c.accepted = false then
        some (.accept n, { s with
          broker := (s.broker.step (.connect n c.owner)).b, conns := s.conns.insert n { c with accepted := true } })
      else
        match c.up with
        | [] => none
        | m :: ms => some (.deliver n m, { s with
          broker := (s.broker.step (.msg n m)).b
          conns := s.conns.insert n { c with up := ms, down := c.down ++ (s.broker.step (.msg n m)).reply.toList } })

instance (s : Sys) (l : Label) : Decidable (Plain s l) :=
  match l with
  | .act _ (.send _ m) _ => inferInstanceAs (Decidable (m.type ≠ .resync))
  | .act i (.connect _ _) _ =>
    match h : s.clients[i]? with
    | none => .isTrue fun _ hcl => nomatch h.symm.trans hcl
    | some cl => decidable_of_iff (cl.gpu.copies = ∅) ⟨fun he _ hcl => Option.some.inj (h.symm.trans hcl) ▸ he, fun hall => hall cl h⟩
  | .act _ (.cu _) _ | .act _ (.drop _) _ | .act _ (.cudaSetDevice _) _ | .act _ .cudaFreeNull _ | .act _ (.attribute _ _) _
  | .act _ .socket _ | .act _ (.setsockopt _ _) _ | .act _ (.close _) _ | .act _ (.recv _) _ | .act _ .atFailed _
  | .join _ _ _ | .call _ _ | .ret _ | .exit _ | .accept _ | .deliver _ _ | .hangup _ | .fail _ | .crash => inferInstanceAs (Decidable True)

/-- The turns in their order, as long as the steps satisfy `A`. -/
def Sys.play (A : Sys → Label → Sys → Prop) [∀ s l s', Decidable (A s l s')] (room : Loc → Bool) : Sys → List Turn → Option Sys
  | s, [] => some s
  | s, t :: ts => (s.turn room t).bind fun x => if A s x.1 x.2 then x.2.play A room ts else none

namespace PlayAux

variable {cfg : Global} {room : Loc → Bool} {s s' : Sys}

/-- The answers are possible. -/
theorem act_of_respond {conns cs : OrdMap ConnId Conn} {i : Nat} {cl cl' : Client} {o : Op} {r : o.Answer}
    (h : cl.respond room conns i o = some (r, cl', cs)) : Act conns i cl o r cl' cs := by
  unfold Client.respond at h
  split at h
  · split at h
    · cases h
      exact ⟨rfl, _, rfl, rfl⟩
    · split at h
      · next hfresh =>
        cases h
        exact ⟨rfl, _, ⟨hfresh, rfl⟩, rfl⟩
      · cases h
  · split at h
    · next hfresh =>
      cases h
      exact ⟨rfl, _, ⟨hfresh, rfl⟩, rfl⟩
    · cases h
  · cases h
    exact ⟨rfl, _, .inl rfl, rfl⟩
  · cases h
    exact ⟨rfl, rfl⟩
  · cases h
    exact ⟨rfl, rfl⟩
  · cases h
    exact ⟨rfl, rfl⟩
  · cases h
    exact ⟨rfl, rfl⟩
  · split at h
    · next hfree =>
      cases h
      exact ⟨rfl, hfree, rfl⟩
    · cases h
  · cases h
    exact ⟨rfl, rfl⟩
  · split at h
    · next hnew =>
      cases h
      exact ⟨hnew.1, _, hnew.2, rfl, rfl⟩
    · cases h
  · cases h
    exact ⟨rfl, rfl⟩
  · split at h
    · next hsock =>
      obtain ⟨c, hc, h⟩ := Option.map_eq_some_iff.1 h
      cases h
      exact ⟨rfl, _, _, c, rfl, hsock, hc, rfl⟩
    · cases h
  · split at h
    · next hsock =>
      obtain ⟨c, hc, h⟩ := Option.bind_eq_some_iff.1 h
      split at h
      · cases h
      · next hdown =>
        cases h
        exact ⟨rfl, _, _, c, _, rfl, hsock, hc, hdown, rfl⟩
    · cases h
  · cases h

/-- A turn is a step. -/
theorem step_turn {t : Turn} {l : Label} (h : s.turn room t = some (l, s')) : s.Step cfg l s' := by
  unfold Sys.turn at h
  split at h
  · split at h
    · next hi =>
      cases h
      exact .join hi
    · cases h
  · split at h
    · cases h
    · next cl hi =>
      split at h
      · next hrun =>
        obtain ⟨p, hp, h⟩ := Option.map_eq_some_iff.1 h
        cases h
        exact .call hi (Option.isNone_iff_eq_none.1 hrun) hp
      · cases h
  · split at h
    · cases h
    · next cl hi =>
      split at h
      · cases h
      · next held b hrun =>
        cases h
        exact .ret hi hrun
      · next o k hrun =>
        obtain ⟨x, hx, h⟩ := Option.map_eq_some_iff.1 h
        cases h
        exact .act hi hrun (act_of_respond hx)
  · split at h
    · cases h
    · next c hn =>
      split at h
      · cases h
      · next hg =>
        have hg := Bool.eq_false_iff.2 hg
        split at h
        · next ha =>
          cases h
          exact .accept hn ha hg
        · next ha =>
          split at h
          · cases h
          · next m ms hup =>
            cases h
            exact .deliver hn (Bool.eq_true_of_not_eq_false ha) hg hup

variable {A : Sys → Label → Sys → Prop} [∀ s l s', Decidable (A s l s')]

/-- What is played is reached. -/
theorem reached_play {ts : List Turn} (h : s.Reached cfg A) (hs : s.play A room ts = some s') : s'.Reached cfg A := by
  induction ts generalizing s with
  | nil =>
    cases hs
    exact h
  | cons t ts ih =>
    unfold Sys.play at hs
    obtain ⟨x, hx, hs⟩ := Option.bind_eq_some_iff.1 hs
    split at hs
    · next ha => exact ih (h.step (step_turn hx) ha) hs
    · cases hs

/-- Process 0 opens with the broker and asks for a chunk of ten bytes, up to the answer of the broker. -/
def asking : List Turn :=
  .join 0 { daemon := some [47] } [] :: (List.replicate 11 (Turn.go 0) ++
    [Turn.serve 4, Turn.serve 4, Turn.go 0, Turn.go 0, Turn.call 0 (.create 10), Turn.go 0, Turn.go 0, Turn.serve 4, Turn.go 0])

end PlayAux

end Vmem
