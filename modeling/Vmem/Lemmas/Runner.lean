import Vmem.Lemmas.Script
import Vmem.Runner

/-!
# Runs of a script

The slots of a run agree with the kinds of the parser (`Agrees`): the slot of a name that has a kind holds a value of this kind, or none
since the last line that assigned it failed. A statement that was parsed in this state finds what it reads, and the state after its line
agrees with the slots after its run.
-/

namespace Vmem

namespace RunnerAux

open Ctx Throwing ScriptAux

variable {P : Parser} {c : Ctx} {s : Stmt}

/-! ## What a parsed statement reads -/

/-- The slot is that of a name with this kind. -/
def TypedRead (P : Parser) (r : Option Nat × ValueKind) : Prop :=
  ∃ (i : Nat) (name : Text), r.1 = some i ∧ slotOf P name i ∧ P.kinds[name]? = some r.2

/-- What the statement reads is there: a value of the kind that its call wants, or none. -/
def Ready (c : Ctx) (s : Stmt) : Prop :=
  ∀ r ∈ s.reads, ∃ (i : Nat) (v : Value), r.1 = some i ∧ c.vals[i]? = some v ∧ (v.kind = r.2 ∨ v.kind = .none)

/-- An error that complains about a missing value is about a slot that the statement reads and that has none. -/
def Blames (c : Ctx) (s : Stmt) (e : RunError) : Prop :=
  ∀ name : Option Text, e = .noValue name → ∃ r ∈ s.reads, ∃ (i : Nat) (v : Value), r.1 = some i ∧ c.vals[i]? = some v ∧
    v.kind = .none ∧ name = c.p.vars[i]?

/-- Code of a call: whatever it calls answers, it leaves the slots alone, and it only complains about missing values that are missing. -/
def Good {α : Type} (c : Ctx) (s : Stmt) (x : RunnerM α) : Prop :=
  wp outcomes x (fun _ c' _ => c' = c) (fun e c' _ => c' = c ∧ Blames c s e) c ()

variable {α γ : Type}

/-- Sequences of good code are good. -/
theorem Good.bind {x : RunnerM α} {f : α → RunnerM γ} (hx : Good c s x) (hf : ∀ a, Good c s (f a)) : Good c s (x >>= f) := by
  refine wp_seq (R := fun _ c' _ => c' = c) hx fun a c' _ hc => ?_
  rw [hc]
  exact hf a

theorem Good.pure (a : α) : Good c s (Pure.pure a : RunnerM α) := rfl

/-- So is an error other than a missing value. -/
theorem Good.throw {e : RunError} (h : ∀ name, e ≠ .noValue name) : Good c s (throw e : RunnerM α) :=
  ⟨rfl, fun name heq => absurd heq (h name)⟩

/-- So is a call other than one for a bad slot. -/
theorem Good.call {i : RunOp} (h : i ≠ .badSlot) : Good c s (Throwing.call i : RunnerM i.Answer) := ⟨h, fun _ _ _ => rfl⟩

/-- A value that is ready can be read. -/
theorem Good.value (hr : Ready c s) {o : Option Nat} {k : ValueKind} (hmem : (o, k) ∈ s.reads) : Good c s (value o k) := by
  obtain ⟨i, v, ho, hv, hk⟩ := hr _ hmem
  have ho : o = some i := ho
  subst ho
  unfold Ctx.value Good
  rw [wp_bind, wp_get]
  simp only [Option.bind_some, hv]
  by_cases heq : v.kind = k
  · rw [if_neg fun h => h heq]
    exact rfl
  · rw [if_pos heq]
    refine ⟨rfl, fun name hname => ⟨_, hmem, i, v, rfl, hv, hk.resolve_left heq, ?_⟩⟩
    cases hname
    rfl

/-- A call of the manager is good, whatever it answers. -/
theorem Good.ask {call : ManagerCall} : Good c s (ask call) := by
  refine Good.bind (Good.call nofun) fun r => ?_
  cases r with
  | ok v => exact Good.pure v
  | error f => exact Good.throw nofun

/-- A size can be read when its slot is ready. -/
theorem Good.size (hr : Ready c s) {o : Operand} (h : ∀ r ∈ Shape.reads .size o, r ∈ s.reads) : Good c s (size o) := by
  unfold Ctx.size
  cases hv : o.var with
  | none => exact Good.pure _
  | some i =>
    refine Good.bind (Good.value hr (h _ ?_)) fun v => Good.pure _
    show _ ∈ if o.var = none then [] else [(o.var, ValueKind.size)]
    rw [hv, if_neg nofun]
    exact List.mem_singleton.2 rfl

theorem Good.addr (hr : Ready c s) {o : Operand} (h : (o.var, .addr) ∈ s.reads) : Good c s (addr o) :=
  Good.bind (Good.value hr h) fun _ => Good.pure _

theorem Good.chunk (hr : Ready c s) {o : Operand} (h : (o.var, .chunk) ∈ s.reads) : Good c s (chunk o) :=
  Good.bind (Good.value hr h) fun _ => Good.pure _

/-- So can the pattern for a chunk. -/
theorem Good.pattern (hr : Ready c s) {o : Operand} (h : (o.var, .chunk) ∈ s.reads) : Good c s (pattern o) :=
  Good.bind (Good.chunk hr h) fun _ => Good.bind Good.ask fun _ => Good.bind Good.ask fun _ => Good.pure _

/-- The interpreter after a write to the slot of a destination. -/
def written (c : Ctx) (dst : Option Nat) (v : Value) : Ctx :=
  match dst with
  | none => c
  | some i => { c with vals := c.vals.set i v }

/-- The slots agree with the kinds of the parser: the value of a name has its kind, or is none since the last assignment failed. -/
structure Agrees (P : Parser) (c : Ctx) : Prop where
  vars : P.p.vars <+: c.p.vars
  length : c.vals.length = c.p.vars.length
  log : c.dead = false → c.log.length = P.p.stmts.length
  value : c.dead = false → ∀ (name : Text) (k : ValueKind) (i : Nat), P.kinds[name]? = some k → slotOf P name i →
    ∃ v : Value, c.vals[i]? = some v ∧ (v.kind = k ∨ (v.kind = .none ∧ LastFailed P.p.stmts c.log i))

/-- What is typed is ready, as long as the slots agree. -/
theorem Agrees.ready (h : Agrees P c) (hd : c.dead = false) (ht : ∀ r ∈ s.reads, TypedRead P r) : Ready c s := by
  intro r hr
  obtain ⟨i, name, ho, hi, hk⟩ := ht r hr
  obtain ⟨v, hv, hkind⟩ := h.value hd name r.2 i hk hi
  exact ⟨i, v, ho, hv, hkind.imp_right And.left⟩

/-- A slot stays where more slots are added. -/
theorem slotOf_vars {P' : Parser} (h : P.p.vars <+: P'.p.vars) {name : Text} {i : Nat} (hi : slotOf P name i) : slotOf P' name i := by
  obtain ⟨hlt, hget⟩ := List.getElem?_eq_some_iff.1 hi
  obtain ⟨ys, hys⟩ := h
  unfold slotOf
  rw [← hys, List.getElem?_append_left hlt, hi]

/-- An accepted statement only adds slots. -/
theorem vars_accept (P : Parser) (dst : Text) (st : Stmt) : P.p.vars <+: (P.accept dst st).p.vars := by
  show _ <+: if dst = [] ∨ dst ∈ P.p.vars then P.p.vars else P.p.vars ++ [dst]
  split
  · exact List.prefix_refl _
  · exact List.prefix_append _ _

/-- A slot whose last writer failed is still so after a statement that does not write it. -/
theorem LastFailed.snoc {stmts : List Stmt} {log : List (Nat × LineStatus)} {i : Nat} (h : LastFailed stmts log i)
    (hs : s.dst ≠ some i) (x : Nat × LineStatus) : LastFailed (stmts ++ [s]) (log ++ [x]) i := by
  obtain ⟨j, s', hj, hdst, hlog, hlast⟩ := h
  obtain ⟨hlt, -⟩ := List.getElem?_eq_some_iff.1 hj
  obtain ⟨hlt', -⟩ := List.getElem?_eq_some_iff.1 hlog
  refine ⟨j, s', by rw [List.getElem?_append_left hlt, hj], hdst, by rw [List.getElem?_append_left hlt', hlog], ?_⟩
  intro j' s'' hjj hs''
  by_cases hin : j' < stmts.length
  · rw [List.getElem?_append_left hin] at hs''
    exact hlast j' s'' hjj hs''
  · rw [List.getElem?_append_right (Nat.le_of_not_lt hin)] at hs''
    cases hidx : j' - stmts.length with
    | zero =>
      rw [hidx] at hs''
      cases hs''
      exact hs
    | succ n =>
      rw [hidx] at hs''
      cases hs''

/-- A destination is written in its slot. -/
theorem written_some (c : Ctx) (i : Nat) (v : Value) : (written c (some i) v).vals = c.vals.set i v := rfl

/-- The value of a name after a line that another name, or none, is assigned by. -/
theorem Agrees.other (hP : P.Sound) (h : Agrees P c) (hd : c.dead = false) {dst name : Text} {k : ValueKind} {i : Nat} {v : Value}
    (hne : ∀ j, s.dst = some j → slotOf (P.accept dst s) dst j ∧ name ≠ dst) (hk : P.kinds[name]? = some k)
    (hi : slotOf (P.accept dst s) name i) (x : Nat × LineStatus) : ∃ w : Value, (written c s.dst v).vals[i]? = some w ∧
      (w.kind = k ∨ (w.kind = .none ∧ LastFailed (P.p.stmts ++ [s]) (c.log ++ [x]) i)) := by
  obtain ⟨i', hi'⟩ := List.mem_iff_getElem?.1 (hP.slot name k hk)
  cases slotOf_unique (sound_accept hP dst s) hi (slotOf_vars (vars_accept P dst s) hi')
  have hni : s.dst ≠ some i := by
    intro heq
    obtain ⟨hj, hnd⟩ := hne i heq
    exact hnd (Option.some.inj (hi.symm.trans hj))
  obtain ⟨w, hw, hkind⟩ := h.value hd name k i hk hi'
  refine ⟨w, ?_, hkind.imp_right fun hlast => ⟨hlast.1, LastFailed.snoc hlast.2 hni x⟩⟩
  cases hdst : s.dst with
  | none => exact hw
  | some j =>
    have hji : j ≠ i := by
      intro heq
      rw [heq] at hdst
      exact hni hdst
    rw [written_some, List.getElem?_set_ne hji, hw]

/-- Parsing lines is parsing the first of them and then the others. -/
theorem lines_append (ls ls' : List Text) : ∀ (no : Nat) (P : Parser),
    Parser.lines no (ls ++ ls') P = Parser.lines (no + ls.length) ls' (Parser.lines no ls P) := by
  induction ls with
  | nil => exact fun no P => rfl
  | cons l ls ih =>
    intro no P
    show Parser.lines (no + 1) (ls ++ ls') _ = _
    rw [ih, List.length_cons, Nat.add_right_comm no 1, Nat.add_assoc no]
    rfl

/-- A line only adds statements and slots. -/
theorem prefix_line (hP : P.Sound) (no : Nat) (raw : Text) :
    P.p.stmts <+: (Parser.line no raw P).p.stmts ∧ P.p.vars <+: (Parser.line no raw P).p.vars := by
  rcases line_cases hP no raw with ⟨-, h⟩ | ⟨-, dst, st, -, h⟩ | ⟨-, ⟨e, h⟩, -⟩
  · rw [h]
    exact ⟨List.prefix_refl _, List.prefix_refl _⟩
  · rw [h]
    exact ⟨List.prefix_append _ _, vars_accept P dst st⟩
  · rw [h]
    exact ⟨List.prefix_refl _, List.prefix_refl _⟩

/-- More lines only add statements and slots. -/
theorem prefix_lines (ls : List Text) : ∀ {no : Nat} {P : Parser}, P.Sound →
    P.p.stmts <+: (Parser.lines no ls P).p.stmts ∧ P.p.vars <+: (Parser.lines no ls P).p.vars := by
  induction ls with
  | nil => exact fun _ => ⟨List.prefix_refl _, List.prefix_refl _⟩
  | cons l ls ih =>
    intro no P hP
    obtain ⟨h1, h2⟩ := prefix_line hP no l
    obtain ⟨h3, h4⟩ := @ih (no + 1) _ (sound_line hP no l)
    exact ⟨h1.trans h3, h2.trans h4⟩

/-- The line that a statement was parsed from. -/
theorem exists_line {done rest : List Stmt} (ls : List Text) : ∀ {no : Nat} {P : Parser}, P.Sound →
    (Parser.lines no ls P).p.stmts = done ++ s :: rest → P.p.stmts.length ≤ done.length →
    ∃ pre raw post dst, ls = pre ++ raw :: post ∧ (Parser.lines no pre P).p.stmts = done ∧
      Parsed (Parser.lines no pre P) (no + pre.length) (content raw) dst s ∧
      Parser.line (no + pre.length) raw (Parser.lines no pre P) = (Parser.lines no pre P).accept dst s := by
  induction ls with
  | nil =>
    intro no P _ heq hle
    have hlen := congrArg List.length heq
    rw [List.length_append, List.length_cons] at hlen
    exact absurd (show P.p.stmts.length = _ from hlen) (by omega)
  | cons l ls ih =>
    intro no P hP heq hle
    have hnext (h : (Parser.line no l P).p.stmts.length ≤ done.length) : ∃ pre raw post dst, l :: ls = pre ++ raw :: post ∧
        (Parser.lines no pre P).p.stmts = done ∧ Parsed (Parser.lines no pre P) (no + pre.length) (content raw) dst s ∧
        Parser.line (no + pre.length) raw (Parser.lines no pre P) = (Parser.lines no pre P).accept dst s := by
      obtain ⟨pre, raw, post, dst, rfl, hdone, hparsed, hline⟩ := ih (sound_line hP no l) heq h
      rw [Nat.add_right_comm no 1, Nat.add_assoc no] at hparsed hline
      exact ⟨l :: pre, raw, post, dst, rfl, hdone, hparsed, hline⟩
    rcases line_cases hP no l with ⟨-, h⟩ | ⟨-, dst, st, hst, h⟩ | ⟨-, ⟨e, h⟩, -⟩
    · exact hnext (by rw [h]; exact hle)
    · by_cases hlt : P.p.stmts.length < done.length
      · refine hnext ?_
        rw [h]
        show (P.p.stmts ++ [st]).length ≤ _
        rw [List.length_append]
        exact hlt
      · have hpre := (@prefix_lines ls (no + 1) _ (sound_line hP no l)).1
        rw [h] at hpre
        obtain ⟨more, hmore⟩ := hpre
        have hall : P.p.stmts ++ st :: more = done ++ s :: rest := by
          rw [← heq]
          show _ = (Parser.lines (no + 1) ls (Parser.line no l P)).p.stmts
          rw [h, ← hmore]
          exact (List.append_assoc P.p.stmts [st] more).symm
        obtain ⟨hdone, hcons⟩ := List.append_inj hall (by omega)
        cases hcons
        exact ⟨[], l, ls, dst, rfl, hdone, hst, h⟩
    · exact hnext (by rw [h]; exact hle)

end RunnerAux

end Vmem
