import Vmem.Runner
import Vmem.Grammar

/-!
# The numbers of a script

The natural number that a statement denotes, said with its text and the values of its variables (`Stmt.Denotes`); and the numbers that its
primitive acts on, as the driver has them when the call is over (`Acting`). The two are the same when the statement is `Stmt.Exact`.
-/

namespace Vmem

/-! ## What the source denotes -/

namespace Grammar

/-- A variable of a program, and its value when a statement is reached. -/
def ValueOf (p : Program) (c : Ctx) (t : Text) (k : ValueKind) (v : Value) : Prop :=
  Name t ∧ ∃ i : Nat, p.vars[i]? = some t ∧ c.vals[i]? = some v ∧ v.kind = k

/-- The address of a variable, and the offset behind it. -/
def Sum (p : Program) (c : Ctx) (t : Text) (r off : Nat) : Prop :=
  ∃ name v, ValueOf p c name .addr v ∧ r = v.num.toNat ∧ ((t = name ∧ off = 0) ∨
    ∃ w w' num, t = name ++ w ++ '+' :: (w' ++ num) ∧ (∀ x ∈ w, isSpace x = true) ∧ (∀ x ∈ w', isSpace x = true) ∧
      Number sizeUnits num off)

/-- The natural number that an argument denotes, by its letter. -/
def Denotes (p : Program) (c : Ctx) (t : Text) : Shape → Nat → Prop
  | .size, n => Number sizeUnits t n ∨ ∃ v, ValueOf p c t .size v ∧ n = v.num.toNat
  | .time, n => Number timeUnits t n
  | .addr, n => ∃ r off, Sum p c t r off ∧ n = r + off
  | _, _ => False

end Grammar

namespace Call

/-- The call has a size, a time or an address. -/
def numeric (c : Call) : Bool := c.args.any fun sh => sh == .size || sh == .time || sh == .addr

/-- What a number means to the call: `reserve` and `create` round it up to the granularity. -/
def meant (gran n : Nat) : Call → Nat
  | .reserve => n ⌈/⌉ gran * gran
  | .create => n ⌈/⌉ gran * gran
  | _ => n

end Call

namespace Stmt

/-- The arguments of a statement, as written. -/
def argTexts (s : Stmt) : List Text :=
  match callRe.fullMatch s.text with
  | none => []
  | some m => Vmem.argTexts (m.text 3)

def Denotes (p : Program) (c : Ctx) (s : Stmt) (n : Nat) : Prop :=
  ∃ (i : Nat) (sh : Shape) (a : Text), s.call.args[i]? = some sh ∧ s.argTexts[i]? = some a ∧ Grammar.Denotes p c a sh n

end Stmt

/-! ## What the primitives act on -/

/-- A manager and its driver under the runner, and the numbers that were acted on. -/
structure Acting (β : Type) where
  x : Managed β
  acts : List Int := []

namespace Acting

variable {β : Type}

/-- The number that a call which returned acted on: the size of the range or of the handle that the driver now has, the address at which
it now has the chunk, or the address that was freed. -/
def acted (x : Managed β) : (c : ManagerCall) → c.Result → List Int
  | .reserve _, va =>
    match x.d.reservations[va]? with
    | none => []
    | some size => [(size.toNat : Int)]
  | .create _ _, t =>
    match x.m.chunks[t.id]?.bind fun c => x.d.handles[c.handle]? with
    | none => []
    | some p => [(p.size.toNat : Int)]
  | .map t _, _ =>
    match x.m.chunks[t.id]? with
    | none => []
    | some c => if x.d.mappings[c.va]?.isSome then [(c.va.toNat : Int)] else []
  | .free va, _ => [(va.toNat : Int)]
  | _, _ => []

/-- The outside of a statement. There is nothing past the end of the slots. -/
def world (β : Type) (fails : Bool) : Prog.World RunOp RunOp.Answer (Acting β) where
  permits _ _ := True
  answers
    | .manager c, w, r, w' =>
      (∃ late, w.x.Step fails c r w'.x late) ∧
        match r with
        | .ok v => w'.acts = w.acts ++ acted w'.x c v
        | .error _ => w'.acts = w.acts
    | .granularity, w, r, w' => r = w.x.m.gran ∧ w' = w
    | .fill _ _ _, w, _, w' => ∃ (h : Handle) (y : β), w' = { w with x := { w.x with d := w.x.d.write h y } }
    | .sleep us, w, _, w' => w' = { w with acts := w.acts ++ [us] }
    | .badSlot, _, _, _ => False
    | _, w, _, w' => w' = w

end Acting

namespace Stmt

variable {β : Type}

/-- When the call of the statement returns, its primitive acted on the number that the source denotes, as it is meant. For `map`, that
number is not below the address of the variable, and in no reservation but that of the sum. -/
def Exact (fails : Bool) (p : Program) (c : Ctx) (x : Managed β) (s : Stmt) : Prop :=
  ∀ (v : Value) (c' : Ctx) (w : Acting β), Prog.Runs (Acting.world β fails) ((s.call.run s).run c) { x } (.ok v, c') w →
    (s.call.numeric = true → ∃ n, s.Denotes p c n ∧ w.acts = [(s.call.meant x.m.gran.toNat n : Int)]) ∧
    (s.call = .map → ∃ (t : Text) (r off a : Nat), s.argTexts[1]? = some t ∧ Grammar.Sum p c t r off ∧ w.acts = [(a : Int)] ∧ r ≤ a ∧
      ∀ (base : Ptr) (len : Size), x.m.reservations[base]? = some len → base.toNat ≤ a → a < base.toNat + len.toNat →
        base.toNat ≤ r + off ∧ r + off < base.toNat + len.toNat)

/-- The numbers of the statement stay in their types: the sum of `map` is an address, or what is left of it is an address at which the
manager does not map the chunk; and the time of `sleep` is not negative as a signed number. -/
def NumbersFit (c : Ctx) (x : Managed β) (s : Stmt) : Prop :=
  (s.call = .sleep → s.a.lit.toNat < 2 ^ 63) ∧
  (s.call = .map → ∀ (i j : Nat) (u v : Value), s.a.var = some i → s.b.var = some j → c.vals[i]? = some u → c.vals[j]? = some v →
    u.kind = .chunk → v.kind = .addr → v.num.toNat + s.b.lit.toNat < 2 ^ 64 ∨ ¬x.MapsAt u.tok (v.num + s.b.lit))

end Stmt

end Vmem
