import Vmem.Manager
import Vmem.Lib.Regex

/-!
# Scripts

The parser of `primitives/src/runner`: a script is one call on a manager per line, and a parsed program is a list of statements over
slots. A line is checked against the kinds that the names have at that point; a bad line is recorded and skipped.
-/

namespace Vmem

abbrev Text := List Char

/-- `runner::Kind`: what a value is; kind `none` is no value. -/
inductive ValueKind
  | none
  | addr
  | chunk
  | size
  | loc
  | bool
deriving DecidableEq, Repr

/-- The value of a slot, if there is one, plus a literal. -/
structure Operand where
  var : Option Nat := none
  lit : BitVec 64 := 0
deriving DecidableEq, Repr

/-! ## The call table -/

/-- The letters `S`, `T`, `L`, `C` and `A`. -/
inductive Shape
  | size
  | time
  | loc
  | chunk
  | addr
deriving DecidableEq, Repr

inductive Call
  | reserve
  | create
  | map
  | unmap
  | remap
  | release
  | free
  | va
  | loc
  | onDevice
  | granularity
  | printState
  | fill
  | check
  | sleep
  | info
deriving DecidableEq, Repr

namespace Call

def all : List Call :=
  [reserve, create, map, unmap, remap, release, free, va, loc, onDevice, granularity, printState, fill, check, sleep, info]

def name : Call → Text
  | reserve => "reserve".toList
  | create => "create".toList
  | map => "map".toList
  | unmap => "unmap".toList
  | remap => "remap".toList
  | release => "release".toList
  | free => "free".toList
  | va => "va".toList
  | loc => "loc".toList
  | onDevice => "on_device".toList
  | granularity => "granularity".toList
  | printState => "print_state".toList
  | fill => "fill".toList
  | check => "check".toList
  | sleep => "sleep".toList
  | info => "info".toList

def args : Call → List Shape
  | reserve => [.size]
  | create => [.size, .loc]
  | map => [.chunk, .addr]
  | unmap => [.chunk]
  | remap => [.chunk, .loc]
  | release => [.chunk]
  | free => [.addr]
  | va => [.chunk]
  | loc => [.chunk]
  | onDevice => [.chunk]
  | granularity => []
  | printState => []
  | fill => [.chunk]
  | check => [.chunk]
  | sleep => [.time]
  | info => [.chunk]

def result : Call → ValueKind
  | reserve => .addr
  | create => .chunk
  | map => .addr
  | unmap => .addr
  | remap => .addr
  | release => .size
  | free => .size
  | va => .addr
  | loc => .loc
  | onDevice => .bool
  | granularity => .size
  | printState => .none
  | fill => .none
  | check => .none
  | sleep => .none
  | info => .none

/-- Look a name up in the table. -/
def find (name : Text) : Option Call := all.find? fun c => c.name == name

end Call

/-! ## Programs -/

structure Stmt where
  line : Nat
  text : Text
  call : Call
  dst : Option Nat := none
  a : Operand := {}
  b : Operand := {}
  loc : Loc := .device
deriving DecidableEq

/-- An argument, by its call and its number. -/
structure Argument where
  call : Call
  index : Nat
deriving DecidableEq

/-- What is wrong with a line. -/
inductive ScriptError
  | cannotRead (wh : Argument) (a : Text)
  | numberTooLarge
  | unknownUnit (wh : Argument) (unit : Text) (names : List Text)
  | tooLarge (wh : Argument)
  | expectedCall
  | unknownCall (name : Text)
  | argumentCount (c : Call) (takes got : Nat)
  | notLocation (wh : Argument)
  | notTime (wh : Argument)
  | notSize (wh : Argument)
  | notChunk (wh : Argument)
  | notAddress (wh : Argument)
  | noOffset (wh : Argument)
  | notDefined (name : Text)
  | wrongKind (wh : Argument) (want : ValueKind) (name : Text) (found : ValueKind)
  | nothingToAssign (c : Call)
  | reserved (dst : Text)
deriving DecidableEq

/-- Statements, the names of the slots, and the lines that were bad. -/
structure Program where
  stmts : List Stmt := []
  vars : List Text := []
  errors : List (Nat × ScriptError × Text) := []
deriving DecidableEq

/-! ## One argument -/

def isSpace (c : Char) : Bool := c == ' ' || c == '\t' || c == '\n' || c == '\x0b' || c == '\x0c' || c == '\r'

def isAlpha (c : Char) : Bool := ('a' ≤ c && c ≤ 'z') || ('A' ≤ c && c ≤ 'Z')

def isDigit (c : Char) : Bool := '0' ≤ c && c ≤ '9'

/-- `[A-Za-z_]`. -/
def isHead (c : Char) : Bool := isAlpha c || c == '_'

/-- `\w`. -/
def isWord (c : Char) : Bool := isHead c || isDigit c

/-- `.`: no line end. -/
def isDot (c : Char) : Bool := c != '\n' && c != '\r'

/-- What `trim` removes at both ends. -/
def isBlank (c : Char) : Bool := c == ' ' || c == '\t' || c == '\r'

def trim (s : Text) : Text := ((s.dropWhile isBlank).reverse.dropWhile isBlank).reverse

section Regexes

open Regex

def nameRe : Regex := seq (one isHead) (many isWord)

/-- `^([A-Za-z_]\w*)?(\s*\+\s*)?(?:(\d+)([A-Za-z]*))?$`. -/
def argRe : Regex :=
  seq (opt (group 1 nameRe)) (seq (opt (group 2 (seq (many isSpace) (seq (one (· == '+')) (many isSpace)))))
    (opt (seq (group 3 (seq (one isDigit) (many isDigit))) (group 4 (many isAlpha)))))

/-- `^(?:([A-Za-z_]\w*)\s*=\s*)?([A-Za-z_]\w*)\s*\((.*)\)$`. -/
def callRe : Regex :=
  seq (opt (seq (group 1 nameRe) (seq (many isSpace) (seq (one (· == '=')) (many isSpace)))))
    (seq (group 2 nameRe) (seq (many isSpace) (seq (one (· == '(')) (seq (group 3 (many isDot)) (one (· == ')'))))))

end Regexes

/-- An argument as written: a name, a number with its unit, or a sum of both. -/
structure Arg where
  name : Text
  unit : Text
  plus : Bool
  hasNum : Bool
  num : BitVec 64
deriving DecidableEq

/-- The number that digits write. -/
def digitsValue (ds : Text) : Nat := ds.foldl (fun n c => n * 10 + (c.toNat - '0'.toNat)) 0

def readArg (wh : Argument) (a : Text) : Except ScriptError Arg :=
  match if a.isEmpty then none else argRe.fullMatch a with
  | none => throw (.cannotRead wh a)
  | some m =>
    if m.matched 2 && !(m.matched 1 && m.matched 3) then throw (.cannotRead wh a)
    else if m.matched 3 then
      if (m.text 3).length > 15 then throw .numberTooLarge
      else pure ⟨m.text 1, m.text 4, m.matched 2, true, BitVec.ofNat 64 (digitsValue (m.text 3))⟩
    else pure ⟨m.text 1, m.text 4, m.matched 2, false, 0⟩

/-- A number times its unit. -/
def scaled (r : Arg) (units : List (Text × BitVec 64)) (wh : Argument) : Except ScriptError (BitVec 64) :=
  match units.lookup r.unit with
  | none => throw (.unknownUnit wh r.unit (units.map Prod.fst))
  | some u => if r.num > BitVec.allOnes 64 / u then throw (.tooLarge wh) else pure (r.num * u)

def sizes : List (Text × BitVec 64) := [([], 1), (['K'], 1 <<< 10), (['M'], 1 <<< 20), (['G'], 1 <<< 30)]

def times : List (Text × BitVec 64) := [(['u', 's'], 1), (['m', 's'], 1000), (['s'], 1000000)]

/-! ## Statements -/

/-- The parser: the program so far, and the kind that each name has at this point of the file. -/
structure Parser where
  p : Program := {}
  kinds : OrdMap Text ValueKind := ∅

/-- Code of the parser. What it wrote before it throws stays written. -/
abbrev ParserM := ExceptT ScriptError (StateM Parser)

namespace Parser

/-- The slot of a name, which is a new one for a new name. -/
def slot (name : Text) : ParserM Nat := do
  let s ← get
  match s.p.vars.findIdx? (· == name) with
  | some i => pure i
  | none => do
    modify fun s => { s with p := { s.p with vars := s.p.vars ++ [name] } }
    pure s.p.vars.length

/-- An input variable: it must exist here, with the right kind. -/
def use (name : Text) (want : ValueKind) (wh : Argument) : ParserM Nat := do
  let s ← get
  match s.kinds[name]? with
  | none => throw (.notDefined name)
  | some k => if k = want then slot name else throw (.wrongKind wh want name k)

/-- Check one argument against its letter; the operand or the location that it fills. -/
def convert (wh : Argument) (shape : Shape) (offsetOk : Bool) (r : Arg) (o : Operand) (loc : Loc) : ParserM (Operand × Loc) :=
  let bareName := !r.name.isEmpty && !r.hasNum
  let bareNum := r.name.isEmpty && r.hasNum
  match shape with
  | .loc =>
    if !bareName || (r.name != "device".toList && r.name != "host".toList) then throw (.notLocation wh)
    else pure (o, if r.name = "host".toList then .host else .device)
  | .time =>
    if !bareNum then throw (.notTime wh)
    else do
      let n ← scaled r times wh
      pure ({ o with lit := n }, loc)
  | .size =>
    if bareNum then do
      let n ← scaled r sizes wh
      pure ({ o with lit := n }, loc)
    else if bareName then do
      let i ← use r.name .size wh
      pure ({ o with var := some i }, loc)
    else throw (.notSize wh)
  | .chunk =>
    if !bareName then throw (.notChunk wh)
    else do
      let i ← use r.name .chunk wh
      pure ({ o with var := some i }, loc)
  | .addr =>
    if r.name.isEmpty then throw (.notAddress wh)
    else if r.plus && !offsetOk then throw (.noOffset wh)
    else do
      let i ← use r.name .addr wh
      if r.plus then do
        let n ← scaled r sizes wh
        pure (⟨some i, n⟩, loc)
      else pure ({ o with var := some i }, loc)

/-- The arguments in order. The first fills the operand `a`, the others `b`. -/
def converts (c : Call) : List Shape → List Text → Nat → Stmt → ParserM Stmt
  | sh :: shs, a :: as, i, st => do
    let r ← readArg ⟨c, i + 1⟩ a
    let x ← convert ⟨c, i + 1⟩ sh (c == .map) r (if i = 0 then st.a else st.b) st.loc
    converts c shs as (i + 1) (if i = 0 then { st with a := x.1, loc := x.2 } else { st with b := x.1, loc := x.2 })
  | _, _, _, st => pure st

/-- The destination takes the kind of the result, after the arguments. -/
def assign (dst : Text) (st : Stmt) : ParserM Stmt :=
  if dst.isEmpty then pure st
  else if st.call.result = .none then throw (.nothingToAssign st.call)
  else if dst = "device".toList ∨ dst = "host".toList ∨ (Call.find dst).isSome then throw (.reserved dst)
  else do
    let i ← slot dst
    modify fun s => { s with kinds := s.kinds.insert dst st.call.result }
    pure { st with dst := some i }

end Parser

/-- What `getline` reads from a stream, piece after piece. -/
def getlines (d : Char) : Text → List Text
  | [] => []
  | c :: cs =>
    if c = d then [] :: getlines d cs
    else match getlines d cs with
      | [] => [[c]]
      | l :: ls => (c :: l) :: ls

/-- The arguments between the parentheses. With a comma behind the last, an empty one still counts. -/
def argTexts (inner : Text) : List Text :=
  let argstr := trim inner
  if argstr.isEmpty then [] else (getlines ',' (argstr ++ [','])).map trim

namespace Parser

/-- `[name =] call(arg, ...)`. -/
def stmt (no : Nat) (s : Text) : ParserM Unit :=
  match callRe.fullMatch s with
  | none => throw .expectedCall
  | some m =>
    match Call.find (m.text 2) with
    | none => throw (.unknownCall (m.text 2))
    | some c =>
      let args := argTexts (m.text 3)
      if args.length ≠ c.args.length then throw (.argumentCount c c.args.length args.length)
      else do
        let st ← converts c c.args args 0 { line := no, text := s, call := c }
        let st ← assign (m.text 1) st
        modify fun s => { s with p := { s.p with stmts := s.p.stmts ++ [st] } }

/-- Skip blanks and comments; record what is wrong with a line and go on. -/
def line (no : Nat) (raw : Text) (P : Parser) : Parser :=
  let s := trim (raw.takeWhile (· ≠ '#'))
  if s.isEmpty then P
  else match (stmt no s).run P with
    | (.ok _, P') => P'
    | (.error e, P') => { P' with p := { P'.p with errors := P'.p.errors ++ [(no, e, s)] } }

/-- The lines of a file, numbered from `no`. -/
def lines : Nat → List Text → Parser → Parser
  | _, [], P => P
  | no, l :: ls, P => lines (no + 1) ls (line no l P)

end Parser

def parse (text : Text) : Program := (Parser.lines 1 (getlines '\n' text) {}).p

/-! ## What a line leaves -/

/-- What is left of a line without its comment and the blanks around it. -/
def ScriptAux.content (raw : Text) : Text := trim (raw.takeWhile (· ≠ '#'))

/-- The state after a line that is wrong. -/
def Parser.reject (P : Parser) (no : Nat) (e : ScriptError) (s : Text) : Parser :=
  { P with p := { P.p with errors := P.p.errors ++ [(no, e, s)] } }

/-- The state after a statement; an empty destination is none. -/
def Parser.accept (P : Parser) (dst : Text) (st : Stmt) : Parser where
  p :=
    { P.p with
      stmts := P.p.stmts ++ [st]
      vars := if dst = [] ∨ dst ∈ P.p.vars then P.p.vars else P.p.vars ++ [dst] }
  kinds := if dst = [] then P.kinds else P.kinds.insert dst st.call.result

end Vmem
