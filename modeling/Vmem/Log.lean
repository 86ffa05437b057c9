import Vmem.Script

/-!
# Log files

The log files of the runner. A stable log is the same for every run of a script: addresses become `va#1`, `va#2` and so on in the order in
which they appear, and the numbers of free memory become `-`.
-/

namespace Vmem

/-- `[0-9a-f]`. -/
def isHex (c : Char) : Bool := isDigit c || ('a' ≤ c && c ≤ 'f')

/-- `0x[0-9a-f]{6,}`. -/
def addrRe : Regex := .seq (.lit "0x".toList) (.atLeast 6 isHex)

/-- `VRAM free [0-9]+`. -/
def vramRe : Regex := .seq (.lit "VRAM free ".toList) (.atLeast 1 isDigit)

/-- A log file: what was written to it, and the numbers of the addresses. -/
structure LogFile where
  f : Text := []
  stable : Bool
  ids : OrdMap Text Nat := ∅

namespace LogFile

/-- The number of an address: a new address gets the next one. -/
def emplace (ids : OrdMap Text Nat) (t : Text) : Nat × OrdMap Text Nat :=
  match ids[t]? with
  | some k => (k, ids)
  | none => (ids.size + 1, ids.insert t (ids.size + 1))

/-- An address in a stable log. -/
def vaName (k : Nat) : Text := "va#".toList ++ Nat.toDigits 10 k

/-- The loop over the addresses: copy what is between them. `last` is the end of the last one. -/
def rewrite (s : Text) : List (Nat × Text) → Nat → Text → OrdMap Text Nat → Text × OrdMap Text Nat
  | [], last, out, ids => (out ++ s.drop last, ids)
  | (pos, t) :: ms, last, out, ids =>
    let x := emplace ids t
    rewrite s ms (pos + t.length) (out ++ ((s.drop last).take (pos - last) ++ vaName x.1)) x.2

def stabilize (input : Text) (ids : OrdMap Text Nat) : Text × OrdMap Text Nat :=
  let s := vramRe.replaceAll "VRAM free -".toList input
  rewrite s (addrRe.finds s) 0 [] ids

/-- Write a text; what was written. -/
def put (s : Text) (l : LogFile) : Text × LogFile :=
  let x := if l.stable then stabilize s l.ids else (s, l.ids)
  (x.1, { l with f := l.f ++ x.1, ids := x.2 })

/-- Texts that are put one after another. -/
def puts : List Text → LogFile → List Text × LogFile
  | [], l => ([], l)
  | s :: ss, l =>
    let x := l.put s
    let y := puts ss x.2
    (x.1 :: y.1, y.2)

end LogFile

/-! ## Marked texts -/

/-- A piece of a text for a log: a character, an address, or a number of free memory. -/
inductive Piece
  | other (c : Char)
  | addr (t : Text)
  | vram (n : Text)
deriving DecidableEq

namespace Piece

def text : Piece → Text
  | other c => [c]
  | addr t => t
  | vram n => "VRAM free ".toList ++ n

/-- A piece as the search for addresses sees it. -/
def inAddrs : Piece → List (Char ⊕ Text)
  | addr t => [.inr t]
  | p => p.text.map .inl

/-- A piece as the search for numbers of free memory sees it. -/
def inVrams : Piece → List (Char ⊕ Text)
  | vram n => [.inr (vram n).text]
  | p => p.text.map .inl

/-- The address of a piece. -/
def addrs : Piece → List Text
  | addr t => [t]
  | _ => []

/-- A piece in a stable log: a number of free memory is `-`, and the number of an address is its place among the addresses of the log,
each taken once, in the order in which they appear. -/
def shown (log : List Text) : Piece → Text
  | other c => [c]
  | addr t => LogFile.vaName (log.eraseDups.idxOf t + 1)
  | vram _ => "VRAM free -".toList

end Piece

/-- These are the pieces of the text: the addresses are all that a search finds, and so are the numbers of free memory. -/
structure Marks (t : Text) (ps : List Piece) : Prop where
  text : t = ps.flatMap Piece.text
  addrs : addrRe.scan 0 t = ps.flatMap Piece.inAddrs
  vrams : vramRe.scan 0 t = ps.flatMap Piece.inVrams

/-- What `0x[0-9a-f]{6,}` matches. -/
def IsAddr (t : Text) : Prop := ∃ hs : Text, t = "0x".toList ++ hs ∧ 6 ≤ hs.length ∧ ∀ c ∈ hs, isHex c = true

/-- The same piece with its address renamed, or with another number. -/
inductive Renamed (φ : Text → Text) : Piece → Piece → Prop
  | other (c : Char) : Renamed φ (.other c) (.other c)
  | addr (t : Text) : Renamed φ (.addr t) (.addr (φ t))
  | vram (n : Text) {n' : Text} (hne : n' ≠ []) (h : ∀ c ∈ n', isDigit c = true) : Renamed φ (.vram n) (.vram n')

end Vmem
