import Vmem.Broker
import Vmem.Script

/-!
# The configuration of the broker

`read_config` of `daemon/vmemd.cpp`: `key = number` lines with comments, read with `fgets` into a buffer of 256 bytes and with `sscanf`. A text
is the bytes of a file without NUL. What the file means is in `ConfigFile`.
-/

namespace Vmem

/-- Why the broker does not start, with the number of the line that it counts. -/
inductive ConfigError
  | expected (n : Nat)
  | unknownKey (n : Nat) (key : Text)
deriving DecidableEq

/-! ## The C library -/

/-- What `fgets` reads into a buffer of this size until the file ends: pieces that end behind a newline or where the buffer is full. `room`
is what the buffer can still take. -/
def fgetsAll (size : Nat) : Nat → Text → List Text
  | _, [] => []
  | room, c :: cs =>
    if c = '\n' ∨ room ≤ 1 then [c] :: fgetsAll size (size - 1) cs
    else match fgetsAll size (room - 1) cs with
      | [] => [[c]]
      | l :: ls => (c :: l) :: ls

/-- `[a-z_]`. -/
def isKey (c : Char) : Bool := ('a' ≤ c && c ≤ 'z') || c == '_'

/-- A number as a `long long`: one that does not fit is the closest that does. -/
def clampLL (v : Int) : Int := max (-2 ^ 63) (min v (2 ^ 63 - 1))

/-- `%lld`: an optional sign and digits, and what follows them. -/
def readLL (s : Text) : Option (Int × Text) :=
  let neg : Bool := s.head? = some '-'
  let s := if s.head? = some '-' ∨ s.head? = some '+' then s.tail else s
  let ds := s.takeWhile isDigit
  if ds.isEmpty then none
  else some (clampLL (if neg then -(digitsValue ds : Int) else digitsValue ds), s.dropWhile isDigit)

/-- What `sscanf` returns and fills. -/
structure Scanned where
  count : Int
  key : Text := []
  v : Int := 0
deriving DecidableEq

/-- `sscanf(line, " %63[a-z_] = %lld %7s", key, &v, rest)`. -/
def scanLine (line : Text) : Scanned :=
  let s := line.dropWhile isSpace
  let key := (s.takeWhile isKey).take 63
  if s.isEmpty then { count := -1 }
  else if key.isEmpty then { count := 0 }
  else match (s.drop key.length).dropWhile isSpace with
    | '=' :: s =>
      match readLL (s.dropWhile isSpace) with
      | none => { count := 1, key }
      | some (v, s) => if (s.dropWhile isSpace).isEmpty then { count := 2, key, v } else { count := 3, key, v }
    | _ => { count := 1, key }

/-! ## The reader -/

/-- One piece of the file. -/
def configLine (n : Nat) (piece : Text) (g : Global) : Except ConfigError Global :=
  let line := piece.takeWhile (· ≠ '#')
  if line.all fun c => c == ' ' || c == '\t' || c == '\r' || c == '\n' then pure g
  else
    let x := scanLine line
    if x.count ≠ 2 ∨ x.v < -1 then throw (.expected n)
    else
      let bytes : Size := if x.v = -1 then unlimited else BitVec.ofInt 64 x.v <<< 20
      if x.key = "vram_limit_mib".toList then pure { g with vramLimit := bytes }
      else if x.key = "dram_limit_mib".toList then pure { g with dramLimit := bytes }
      else if x.key = "ctx_overhead_mib".toList then pure { g with ctxOverhead := if x.v = -1 then 0 else bytes }
      else throw (.unknownKey n x.key)

def configLines : Nat → List Text → Global → Except ConfigError Global
  | _, [], g => pure g
  | n, p :: ps, g => do
    let g ← configLine n p g
    configLines (n + 1) ps g

/-- The limits of a file. The broker does not start on an error. -/
def readConfig (text : Text) : Except ConfigError Global := configLines 1 (fgetsAll 256 255 text) {}

/-! ## What a file means -/

namespace ConfigFile

inductive Key
  | vram
  | dram
  | overhead
deriving DecidableEq, Repr

def Key.name : Key → Text
  | vram => "vram_limit_mib".toList
  | dram => "dram_limit_mib".toList
  | overhead => "ctx_overhead_mib".toList

def Key.field : Key → Global → Size
  | vram, g => g.vramLimit
  | dram, g => g.dramLimit
  | overhead, g => g.ctxOverhead

/-- A line without its comment. -/
def uncomment (line : Text) : Text := line.takeWhile (· ≠ '#')

def Blank (t : Text) : Prop := ∀ c ∈ t, c = ' ' ∨ c = '\t' ∨ c = '\r' ∨ c = '\n'

def Spaces (t : Text) : Prop := ∀ c ∈ t, isSpace c = true

/-- A decimal integer: digits with an optional sign. -/
def Decimal (t : Text) (n : Int) : Prop :=
  ∃ ds : Text, ds ≠ [] ∧ (∀ c ∈ ds, isDigit c = true) ∧
    (((t = ds ∨ t = '+' :: ds) ∧ n = digitsValue ds) ∨ (t = '-' :: ds ∧ n = -(digitsValue ds : Int)))

/-- `key = n` with white space around the parts, and nothing behind the number. -/
def Assigns (t : Text) (key : Text) (n : Int) : Prop :=
  ∃ w1 w2 w3 num w4, t = w1 ++ (key ++ (w2 ++ '=' :: (w3 ++ (num ++ w4)))) ∧ Spaces w1 ∧ Spaces w2 ∧ Spaces w3 ∧ Spaces w4 ∧ Decimal num n

/-- What a line says: nothing, or a number for a key. Other lines say nothing that is allowed. -/
inductive Says (line : Text) : Option (Key × Int) → Prop
  | blank (h : Blank (uncomment line)) : Says line none
  | assign {k : Key} {n : Int} (h : Assigns (uncomment line) k.name n) (hn : -1 ≤ n) : Says line (some (k, n))

/-- Every line is allowed. -/
def Allowed (lines : List Text) : Prop := ∀ l ∈ lines, ∃ x, Says l x

/-- The number that the last line for a key gives it; -1 when there is none. -/
def Number (lines : List Text) (k : Key) (n : Int) : Prop :=
  (∃ before l after, lines = before ++ l :: after ∧ Says l (some (k, n)) ∧ ∀ l' ∈ after, ∀ m, ¬Says l' (some (k, m))) ∨
  (n = -1 ∧ ∀ l ∈ lines, ∀ m, ¬Says l (some (k, m)))

/-- The amount of a number in MiB: for -1 no overhead, and no limit. -/
def amount (k : Key) (n : Int) : Option Nat :=
  if n = -1 then
    match k with
    | .overhead => some 0
    | _ => none
  else some n.toNat

/-- What a limit of so many MiB is in force: that many bytes, or no limit. -/
def InForce (amount : Option Nat) (limit : Size) : Prop :=
  match amount with
  | none => limit = unlimited
  | some n => limit.toNat = n * 2 ^ 20

/-- The file with the text of its comments left out; the `#` stay. -/
def uncommentAll : Bool → Text → Text
  | _, [] => []
  | inside, c :: cs =>
    if c = '\n' then c :: uncommentAll false cs
    else if inside then uncommentAll true cs
    else if c = '#' then c :: uncommentAll true cs
    else c :: uncommentAll false cs

/-- The broker reads the file exactly: it starts when every line is allowed and only then, every limit is the amount of the last number for
its key, and the text of the comments does not matter. -/
structure Exact (text : Text) : Prop where
  starts : (∃ g, readConfig text = .ok g) ↔ Allowed (getlines '\n' text)
  limits : ∀ g, readConfig text = .ok g → ∀ (k : Key) (n : Int), Number (getlines '\n' text) k n → InForce (amount k n) (k.field g)
  comments : ∀ g, readConfig text = .ok g ↔ readConfig (uncommentAll false text) = .ok g

/-- The pieces of 255 bytes that are read say what the lines say. They are all allowed when the lines are, and only then; and then, for every
key, the last number among the pieces, cut at `2 ^ 63 - 1`, leaves the last number among the lines when it is divided by `2 ^ 44`. -/
structure PiecesAgree (text : Text) : Prop where
  allowed : Allowed (fgetsAll 256 255 text) ↔ Allowed (getlines '\n' text)
  numbers : Allowed (getlines '\n' text) → ∀ (k : Key) (n m : Int), Number (getlines '\n' text) k n → Number (fgetsAll 256 255 text) k m →
    (amount k m).map (fun v => min v (2 ^ 63 - 1) % 2 ^ 44) = amount k n

end ConfigFile

end Vmem
