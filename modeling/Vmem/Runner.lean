import Vmem.Script
import Vmem.ManagerRuns

/-!
# The runner

`primitives/src/runner`: a program runs line by line on one manager. A statement reads its operands from the slots, makes its call and
writes the slot of its destination; a line that fails leaves its destination without a value, and the next line goes on.
-/

namespace Vmem

/-- What a slot holds. -/
structure Value where
  kind : ValueKind := .none
  num : BitVec 64 := 0
  tok : ChunkToken := {}
deriving DecidableEq

/-- What the interpreter calls. `badSlot` is an access past the end of the slots, which is undefined in the source. -/
inductive RunOp
  | manager (c : ManagerCall)
  | granularity
  | printState
  | fill (p n : BitVec 64) (k : BitVec 32)
  | check (p n : BitVec 64) (k : BitVec 32)
  | sleep (us : Int)
  | synchronize
  | badSlot
deriving DecidableEq

/-- `fill` answers an error of the runtime or none, `check` the number of wrong words, and `synchronize` whether the context is broken. -/
@[reducible] def RunOp.Answer : RunOp → Type
  | .manager c => Except Fault c.Result
  | .granularity => BitVec 64
  | .printState => Unit
  | .fill _ _ _ => Option CuError
  | .check _ _ _ => Except CuError (BitVec 64)
  | .sleep _ => Unit
  | .synchronize => Option CuError
  | .badSlot => Value

/-- Why a line failed. -/
inductive RunError
  | noValue (name : Option Text)
  | manager (f : Fault)
  | cuda (e : CuError)
  | wrong (bad n : BitVec 64) (id : BitVec 32)
deriving DecidableEq

inductive LineStatus
  | ok
  | error
  | skip
deriving DecidableEq, Repr

/-- The interpreter: the program, the slots, and what the loop over the statements counts and logs. -/
structure Ctx where
  p : Program
  vals : List Value
  errors : Nat := 0
  skipped : Nat := 0
  dead : Bool := false
  log : List (Nat × LineStatus) := []
deriving DecidableEq

/-- Code of the interpreter. -/
abbrev RunnerM := Throwing RunOp RunOp.Answer Ctx RunError

namespace Ctx

/-- The value of a slot, of the kind that the call wants. -/
def value (var : Option Nat) (k : ValueKind) : RunnerM Value := do
  let c ← get
  match var.bind fun i => c.vals[i]? with
  | none => Throwing.call RunOp.badSlot
  | some v => if v.kind ≠ k then throw (.noValue (var.bind fun i => c.p.vars[i]?)) else pure v

def size (o : Operand) : RunnerM (BitVec 64) :=
  match o.var with
  | none => pure (0 + o.lit)
  | some i => do
    let v ← value (some i) .size
    pure (v.num + o.lit)

def addr (o : Operand) : RunnerM (BitVec 64) := do
  let v ← value o.var .addr
  pure (v.num + o.lit)

def chunk (o : Operand) : RunnerM ChunkToken := do
  let v ← value o.var .chunk
  pure v.tok

/-- A call of the manager. -/
def ask (c : ManagerCall) : RunnerM c.Result := do
  let r : Except Fault c.Result ← Throwing.call (RunOp.manager c)
  match r with
  | .ok v => pure v
  | .error f => throw (.manager f)

/-- The chunk with what `fill` and `check` write and read: its address, its words and the key of its pattern. -/
def pattern (o : Operand) : RunnerM (BitVec 64 × BitVec 64 × ChunkInfo) := do
  let t ← chunk o
  let i ← ask (.info t)
  let p ← ask (.va t)
  pure (p, i.size / 4, i)

end Ctx

open Ctx in
/-- The code of a call. -/
def Call.run (s : Stmt) : Call → RunnerM Value
  | .reserve => do
    let n ← size s.a
    let va ← ask (.reserve n)
    pure { num := va }
  | .create => do
    let n ← size s.a
    let tok ← ask (.create n s.loc)
    pure { tok }
  | .map => do
    let t ← chunk s.a
    let p ← addr s.b
    let va ← ask (.map t p)
    pure { num := va }
  | .unmap => do
    let t ← chunk s.a
    let va ← ask (.unmap t)
    pure { num := va }
  | .remap => do
    let t ← chunk s.a
    let va ← ask (.remap t s.loc)
    pure { num := va }
  | .release => do
    let t ← chunk s.a
    let n ← ask (.release t)
    pure { num := n }
  | .free => do
    let p ← addr s.a
    let n ← ask (.free p)
    pure { num := n }
  | .va => do
    let t ← chunk s.a
    let va ← ask (.va t)
    pure { num := va }
  | .loc => do
    let t ← chunk s.a
    let l ← ask (.loc t)
    pure { num := if l = .device then 0 else 1 }
  | .onDevice => do
    let t ← chunk s.a
    let l ← ask (.loc t)
    pure { num := if l = .device then 1 else 0 }
  | .granularity => do
    let n : BitVec 64 ← Throwing.call RunOp.granularity
    pure { num := n }
  | .printState => do
    let _ : Unit ← Throwing.call RunOp.printState
    pure {}
  | .fill => do
    let x ← pattern s.a
    let e : Option CuError ← Throwing.call (RunOp.fill x.1 x.2.1 (x.2.2.id + 1))
    match e with
    | none => pure {}
    | some e => throw (.cuda e)
  | .check => do
    let x ← pattern s.a
    let r : Except CuError (BitVec 64) ← Throwing.call (RunOp.check x.1 x.2.1 (x.2.2.id + 1))
    match r with
    | .error e => throw (.cuda e)
    | .ok bad => if bad ≠ 0 then throw (.wrong bad x.2.1 x.2.2.id) else pure {}
  | .sleep => do
    let _ : Unit ← Throwing.call (RunOp.sleep s.a.lit.toInt)
    pure {}
  | .info => do
    let t ← chunk s.a
    let _ ← ask (.info t)
    pure {}

namespace Ctx

/-- The interpreter before the first statement. -/
def start (p : Program) : Ctx := { p, vals := List.replicate p.vars.length {} }

end Ctx

/-! ## What a call reads -/

/-- What a call reads of an operand: a slot, and the kind that it wants. -/
def Shape.reads : Shape → Operand → List (Option Nat × ValueKind)
  | .size, o => if o.var = none then [] else [(o.var, .size)]
  | .chunk, o => [(o.var, .chunk)]
  | .addr, o => [(o.var, .addr)]
  | _, _ => []

/-- The slots that a statement reads. -/
def Stmt.reads (s : Stmt) : List (Option Nat × ValueKind) := (s.call.args.zip [s.a, s.b]).flatMap fun x => x.1.reads x.2

/-- The last statement that assigned the slot failed. -/
def LastFailed (stmts : List Stmt) (log : List (Nat × LineStatus)) (i : Nat) : Prop :=
  ∃ (j : Nat) (s : Stmt), stmts[j]? = some s ∧ s.dst = some i ∧ log[j]? = some (s.line, .error) ∧
    ∀ (j' : Nat) (s' : Stmt), j < j' → stmts[j']? = some s' → s'.dst ≠ some i

/-- Every outcome of every call; there is none past the end of the slots. -/
def Ctx.outcomes : Prog.World RunOp RunOp.Answer Unit where
  permits i _ := i ≠ .badSlot
  answers _ _ _ _ := True

end Vmem
