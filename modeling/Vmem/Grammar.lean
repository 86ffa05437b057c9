import Vmem.Script

/-!
# The grammar of scripts

What a line of a script may be, said without the expressions that read it: `[name =] call(arg, ..., arg)`, with blanks around its parts and
every argument as the letter of the call says (`Sentence`). A sentence also says which statement it writes.
-/

namespace Vmem

namespace Grammar

/-- Printable characters and tabs. -/
def Printable (t : Text) : Prop := ∀ c ∈ t, c = '\t' ∨ (' ' ≤ c ∧ c ≤ '~')

instance (t : Text) : Decidable (Printable t) := List.decidableBAll _ t

/-- Spaces and tabs. -/
def Blank (t : Text) : Prop := ∀ c ∈ t, c = ' ' ∨ c = '\t'

/-- No blank at either end. -/
def Trimmed (t : Text) : Prop := ∀ c : Char, (t.head? = some c ∨ t.getLast? = some c) → c ≠ ' ' ∧ c ≠ '\t'

/-- What a line says: without its comment, which starts at the first `#`, and without the blanks around it. -/
def Content (raw t : Text) : Prop :=
  ∃ w w' comment, raw = w ++ t ++ w' ++ comment ∧ Blank w ∧ Blank w' ∧ '#' ∉ t ∧ Trimmed t ∧ (comment = [] ∨ ∃ r, comment = '#' :: r)

/-- A letter or an underscore, and then letters, digits and underscores. -/
def Name (t : Text) : Prop := ∃ c cs, t = c :: cs ∧ isHead c = true ∧ ∀ x ∈ cs, isWord x = true

def Digits (t : Text) : Prop := t ≠ [] ∧ ∀ c ∈ t, isDigit c = true

def sizeUnits : List (Text × Nat) := [([], 1), (['K'], 2 ^ 10), (['M'], 2 ^ 20), (['G'], 2 ^ 30)]

def timeUnits : List (Text × Nat) := [(['u', 's'], 1), (['m', 's'], 1000), (['s'], 1000000)]

/-- A number with a unit: at most 15 digits, and a value below `2 ^ 64`. -/
def Number (units : List (Text × Nat)) (t : Text) (n : Nat) : Prop :=
  ∃ ds unit k, t = ds ++ unit ∧ Digits ds ∧ ds.length ≤ 15 ∧ (unit, k) ∈ units ∧ n = digitsValue ds * k ∧ n < 2 ^ 64

/-- A name that is defined at this point of the file, with this kind and this slot. -/
def Variable (P : Parser) (t : Text) (k : ValueKind) (i : Nat) : Prop := Name t ∧ P.kinds[t]? = some k ∧ P.p.vars[i]? = some t

/-- An argument of a call, by its letter, and the operand and the location that it writes. -/
def Argument (P : Parser) (c : Call) (t : Text) : Shape → Operand → Loc → Prop
  | .size, o, _ => (∃ n, Number sizeUnits t n ∧ o = ⟨none, BitVec.ofNat 64 n⟩) ∨ ∃ i, Variable P t .size i ∧ o = ⟨some i, 0⟩
  | .time, o, _ => ∃ n, Number timeUnits t n ∧ o = ⟨none, BitVec.ofNat 64 n⟩
  | .loc, o, l => o = {} ∧ ((t = "device".toList ∧ l = .device) ∨ (t = "host".toList ∧ l = .host))
  | .chunk, o, _ => ∃ i, Variable P t .chunk i ∧ o = ⟨some i, 0⟩
  | .addr, o, _ => ∃ name i, Variable P name .addr i ∧ ((t = name ∧ o = ⟨some i, 0⟩) ∨
      (c = .map ∧ ∃ w w' num n, t = name ++ w ++ '+' :: (w' ++ num) ∧ Blank w ∧ Blank w' ∧ Number sizeUnits num n ∧
        o = ⟨some i, BitVec.ofNat 64 n⟩))

/-- A text with blanks around it. -/
def Padded (p t : Text) : Prop := ∃ w w', p = w ++ t ++ w' ∧ Blank w ∧ Blank w'

/-- Arguments with commas between them. -/
inductive Arguments : Text → List Text → Prop
  | none {inner : Text} (h : Blank inner) : Arguments inner []
  | last {p t : Text} (h : Padded p t) : Arguments p [t]
  | more {p t inner : Text} {ts : List Text} (h : Padded p t) (hmore : Arguments inner ts) (hne : ts ≠ []) :
      Arguments (p ++ ',' :: inner) (t :: ts)

/-- `[dst =] name(inner)`; without a destination, `dst` is empty. -/
def Form (t dst name inner : Text) : Prop :=
  ∃ head w, t = head ++ name ++ w ++ '(' :: (inner ++ [')']) ∧ Name name ∧ Blank w ∧
    ((dst = [] ∧ head = []) ∨ (Name dst ∧ ∃ w1 w2, head = dst ++ w1 ++ '=' :: w2 ∧ Blank w1 ∧ Blank w2))

/-- A destination: not a reserved word, and only of a call that returns a value. It writes the slot of its name. -/
def Destination (P : Parser) (dst : Text) (st : Stmt) : Prop :=
  (dst = [] ∧ st.dst = none) ∨ (dst ≠ [] ∧ st.call.result ≠ .none ∧ dst ≠ "device".toList ∧ dst ≠ "host".toList ∧
    (∀ c : Call, c.name ≠ dst) ∧ ∃ i, (P.accept dst st).p.vars[i]? = some dst ∧ st.dst = some i)

/-- The operand that the argument with this number writes. -/
def operand (st : Stmt) : Nat → Operand
  | 0 => st.a
  | _ + 1 => st.b

/-- A line that the grammar allows in a state of the parser, and its statement: the call, the operands, the location and the slot of the
destination are those written, and operands that the call does not have are empty. -/
structure Sentence (P : Parser) (no : Nat) (t dst : Text) (st : Stmt) : Prop where
  line : st.line = no
  text : st.text = t
  args : ∃ inner ts, Form t dst st.call.name inner ∧ Arguments inner ts ∧ ts.length = st.call.args.length ∧
    ∀ i sh a, st.call.args[i]? = some sh → ts[i]? = some a → Argument P st.call a sh (operand st i) st.loc
  unused : ∀ i : Nat, st.call.args[i]? = none → i < 2 → operand st i = {}
  loc : .loc ∉ st.call.args → st.loc = .device
  dst : Destination P dst st

end Grammar

open Grammar Vmem.Parser in
/-- A line is read as the grammar says. Without its comment and the blanks around it, it is nothing, and then it is ignored; or it is a
sentence, and then the one statement that it writes is added, with its destination; or it is neither, and then an error is added. -/
def Parser.ReadsByGrammar (P : Parser) (no : Nat) (raw : Text) : Prop :=
  ∃ t, Content raw t ∧ (∀ t', Content raw t' → t' = t) ∧
    ((t = [] ∧ line no raw P = P) ∨
    (t ≠ [] ∧ ∃ dst st, Sentence P no t dst st ∧ (∀ dst' st', Sentence P no t dst' st' → dst' = dst ∧ st' = st) ∧
      line no raw P = P.accept dst st) ∨
    (t ≠ [] ∧ (∀ dst st, ¬Sentence P no t dst st) ∧ ∃ e, line no raw P = P.reject no e t))

end Vmem
