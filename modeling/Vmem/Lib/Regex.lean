import Mathlib

/-!
# Regular expressions

Regular expressions over lists of characters as a backtracking matcher reads them: a hit has the text that was matched, what the groups
captured and the rest of the input, and the hits come in the order in which the matcher tries them (`run`); repetition is greedy.
`Matches` says what an expression matches, without an order, and `mem_run` that these are the same. `fullMatch` is a match of the whole
input, and `scan` is what a search finds one after another.
-/

namespace Vmem

/-- A regular expression. Only classes of characters are repeated. -/
inductive Regex
  | eps
  | one (p : Char → Bool)
  | many (p : Char → Bool)
  | seq (a b : Regex)
  | opt (a : Regex)
  | group (n : Nat) (a : Regex)

namespace Regex

/-- What groups captured. -/
abbrev Captures := List (Nat × List Char)

/-- A group as text; a group that took no part is empty. -/
def Captures.text (c : Captures) (n : Nat) : List Char := (c.lookup n).getD []

/-- Whether a group took part. -/
def Captures.matched (c : Captures) (n : Nat) : Bool := (c.lookup n).isSome

/-- A match of a prefix of the input. -/
structure Hit where
  text : List Char
  caps : Captures
  rest : List Char
deriving DecidableEq

/-- `n` characters and then any number. -/
def atLeast : Nat → (Char → Bool) → Regex
  | 0, p => many p
  | n + 1, p => seq (one p) (atLeast n p)

/-- The expression that matches just a text. -/
def lit : List Char → Regex
  | [] => eps
  | c :: cs => seq (one (· == c)) (lit cs)

/-! ## Matching -/

/-- The ways to cut off characters of a class, the longest first. -/
def cuts (p : Char → Bool) : List Char → List (List Char × List Char)
  | [] => [([], [])]
  | c :: cs => if p c then (cuts p cs).map (fun x => (c :: x.1, x.2)) ++ [([], c :: cs)] else [([], c :: cs)]

/-- The hits at the start of an input, in the order in which they are tried. -/
def run : Regex → List Char → List Hit
  | eps, s => [⟨[], [], s⟩]
  | one _, [] => []
  | one p, c :: cs => if p c then [⟨[c], [], cs⟩] else []
  | many p, s => (cuts p s).map fun x => ⟨x.1, [], x.2⟩
  | seq a b, s => (run a s).flatMap fun h => (run b h.rest).map fun h' => ⟨h.text ++ h'.text, h.caps ++ h'.caps, h'.rest⟩
  | opt a, s => run a s ++ [⟨[], [], s⟩]
  | group n a, s => (run a s).map fun h => { h with caps := (n, h.text) :: h.caps }

/-- The captures of the first hit that takes the whole input. -/
def fullMatch (r : Regex) (s : List Char) : Option Captures := ((run r s).find? fun h => h.rest.isEmpty).map Hit.caps

/-- The first hit at the start of an input. -/
def first (r : Regex) (s : List Char) : Option Hit := (run r s).head?

/-! ## Searching -/

/-- What a search finds from left to right: the characters that no match takes, and the texts of the matches. The number counts the
characters of a match that are still to pass; an empty match is not taken. -/
def scan (r : Regex) : Nat → List Char → List (Char ⊕ List Char)
  | _, [] => []
  | n + 1, _ :: cs => scan r n cs
  | 0, c :: cs =>
    match first r (c :: cs) with
    | none => .inl c :: scan r 0 cs
    | some h => if h.text.isEmpty then .inl c :: scan r 0 cs else .inr h.text :: scan r (h.text.length - 1) cs

/-- The matches of a search that starts at a position, with their positions. -/
def positions : Nat → List (Char ⊕ List Char) → List (Nat × List Char)
  | _, [] => []
  | i, .inl _ :: xs => positions (i + 1) xs
  | i, .inr t :: xs => (i, t) :: positions (i + t.length) xs

/-- The matches in a text, with their positions. -/
def finds (r : Regex) (s : List Char) : List (Nat × List Char) := positions 0 (scan r 0 s)

/-- A text with every match replaced. -/
def replaceAll (r : Regex) (rep s : List Char) : List Char :=
  (scan r 0 s).flatMap fun x =>
    match x with
    | .inl c => [c]
    | .inr _ => rep

/-! ## What an expression matches -/

inductive Matches : Regex → List Char → Captures → Prop
  | eps : Matches eps [] []
  | one {p : Char → Bool} {c : Char} (h : p c = true) : Matches (one p) [c] []
  | many {p : Char → Bool} {s : List Char} (h : ∀ c ∈ s, p c = true) : Matches (many p) s []
  | seq {a b : Regex} {s s' : List Char} {c c' : Captures} (ha : Matches a s c) (hb : Matches b s' c') :
      Matches (seq a b) (s ++ s') (c ++ c')
  | none {a : Regex} : Matches (opt a) [] []
  | some {a : Regex} {s : List Char} {c : Captures} (h : Matches a s c) : Matches (opt a) s c
  | group {n : Nat} {a : Regex} {s : List Char} {c : Captures} (h : Matches a s c) : Matches (group n a) s ((n, s) :: c)

/-- The cuts of a text behind characters of a class. -/
theorem mem_cuts {p : Char → Bool} {s a b : List Char} : (a, b) ∈ cuts p s ↔ s = a ++ b ∧ ∀ c ∈ a, p c = true := by
  induction s generalizing a with
  | nil =>
    unfold cuts
    rw [List.mem_singleton, Prod.mk.injEq]
    constructor
    · intro h
      obtain ⟨rfl, rfl⟩ := h
      exact ⟨rfl, nofun⟩
    · intro h
      exact List.append_eq_nil_iff.1 h.1.symm
  | cons x xs ih =>
    have hempty : (a, b) = ([], x :: xs) → x :: xs = a ++ b ∧ ∀ c ∈ a, p c = true := by
      intro h
      cases h
      exact ⟨rfl, nofun⟩
    unfold cuts
    by_cases hx : p x = true
    · rw [if_pos hx, List.mem_append, List.mem_singleton, List.mem_map]
      constructor
      · intro h
        rcases h with ⟨⟨a', b'⟩, hmem, heq⟩ | h
        · cases heq
          obtain ⟨rfl, hall⟩ := ih.1 hmem
          refine ⟨rfl, fun c hc => ?_⟩
          rcases List.mem_cons.1 hc with rfl | hc
          · exact hx
          · exact hall c hc
        · exact hempty h
      · intro h
        obtain ⟨heq, hall⟩ := h
        cases a with
        | nil => exact .inr (by rw [show b = x :: xs from heq.symm])
        | cons y ys =>
          obtain ⟨rfl, rfl⟩ := List.cons_eq_cons.1 heq
          exact .inl ⟨(ys, b), ih.2 ⟨rfl, fun c hc => hall c (List.mem_cons_of_mem _ hc)⟩, rfl⟩
    · rw [if_neg hx, List.mem_singleton]
      refine ⟨hempty, fun h => ?_⟩
      obtain ⟨heq, hall⟩ := h
      cases a with
      | nil => rw [show b = x :: xs from heq.symm]
      | cons y ys =>
        obtain ⟨rfl, rfl⟩ := List.cons_eq_cons.1 heq
        exact absurd (hall _ List.mem_cons_self) hx

/-- The matcher finds exactly the matches. -/
theorem mem_run {r : Regex} {s t rest : List Char} {c : Captures} : ⟨t, c, rest⟩ ∈ run r s ↔ s = t ++ rest ∧ Matches r t c := by
  induction r generalizing s t rest c with
  | eps =>
    unfold run
    rw [List.mem_singleton]
    constructor
    · intro h
      cases h
      exact ⟨rfl, .eps⟩
    · intro h
      obtain ⟨heq, hm⟩ := h
      cases hm
      rw [show s = rest from heq]
  | one p =>
    constructor
    · intro h
      cases s with
      | nil => cases h
      | cons x xs =>
        unfold run at h
        split at h
        · rw [List.mem_singleton] at h
          cases h
          exact ⟨rfl, .one ‹_›⟩
        · cases h
    · intro h
      obtain ⟨rfl, hm⟩ := h
      cases hm with
      | one hp =>
        show _ ∈ run (one p) (_ :: rest)
        unfold run
        rw [if_pos hp]
        exact List.mem_singleton.2 rfl
  | many p =>
    unfold run
    rw [List.mem_map]
    constructor
    · intro h
      obtain ⟨⟨a, b⟩, hmem, heq⟩ := h
      cases heq
      obtain ⟨heq, hall⟩ := mem_cuts.1 hmem
      exact ⟨heq, .many hall⟩
    · intro h
      obtain ⟨heq, hm⟩ := h
      cases hm with
      | many hall => exact ⟨(t, rest), mem_cuts.2 ⟨heq, hall⟩, rfl⟩
  | seq a b iha ihb =>
    unfold run
    rw [List.mem_flatMap]
    constructor
    · intro h
      obtain ⟨⟨t1, c1, rest1⟩, hmem1, hmem⟩ := h
      obtain ⟨⟨t2, c2, rest2⟩, hmem2, heq⟩ := List.mem_map.1 hmem
      cases heq
      obtain ⟨hs1, hm1⟩ := iha.1 hmem1
      obtain ⟨hs2, hm2⟩ := ihb.1 hmem2
      have hs2 : rest1 = t2 ++ rest2 := hs2
      refine ⟨?_, .seq hm1 hm2⟩
      rw [hs1, hs2]
      exact (List.append_assoc _ _ _).symm
    · intro h
      obtain ⟨heq, hm⟩ := h
      cases hm with
      | @seq _ _ t1 t2 c1 c2 hm1 hm2 =>
        have hs : s = t1 ++ (t2 ++ rest) := by
          rw [heq]
          exact List.append_assoc _ _ _
        exact ⟨⟨t1, c1, t2 ++ rest⟩, iha.2 ⟨hs, hm1⟩, List.mem_map.2 ⟨⟨t2, c2, rest⟩, ihb.2 ⟨rfl, hm2⟩, rfl⟩⟩
  | opt a iha =>
    unfold run
    rw [List.mem_append, List.mem_singleton]
    constructor
    · intro h
      rcases h with hmem | heq
      · obtain ⟨heq, hm⟩ := iha.1 hmem
        exact ⟨heq, .some hm⟩
      · cases heq
        exact ⟨rfl, .none⟩
    · intro h
      obtain ⟨heq, hm⟩ := h
      cases hm with
      | none => exact .inr (by rw [show s = rest from heq])
      | some hm => exact .inl (iha.2 ⟨heq, hm⟩)
  | group n a iha =>
    unfold run
    rw [List.mem_map]
    constructor
    · intro h
      obtain ⟨⟨t', c', rest'⟩, hmem, heq⟩ := h
      cases heq
      obtain ⟨heq, hm⟩ := iha.1 hmem
      exact ⟨heq, .group hm⟩
    · intro h
      obtain ⟨heq, hm⟩ := h
      cases hm with
      | @group _ _ _ c' hm => exact ⟨⟨t, c', rest⟩, iha.2 ⟨heq, hm⟩, rfl⟩

/-- What is found to match matches. -/
theorem matches_of_fullMatch {r : Regex} {s : List Char} {c : Captures} (h : fullMatch r s = some c) : Matches r s c := by
  obtain ⟨⟨t, c', rest⟩, hfind, rfl⟩ := Option.map_eq_some_iff.1 h
  obtain ⟨heq, hm⟩ := mem_run.1 (List.mem_of_find?_eq_some hfind)
  have hempty := List.find?_some hfind
  have hrest : rest = [] := List.isEmpty_iff.1 hempty
  rw [hrest, List.append_nil] at heq
  rw [heq]
  exact hm

/-- An input that is matched has a first full match. -/
theorem exists_fullMatch {r : Regex} {s : List Char} {c : Captures} (h : Matches r s c) : ∃ c', fullMatch r s = some c' := by
  have hmem : (⟨s, c, []⟩ : Hit) ∈ run r s := mem_run.2 ⟨(List.append_nil s).symm, h⟩
  cases hfind : (run r s).find? fun h => h.rest.isEmpty with
  | some hit => exact ⟨hit.caps, by unfold fullMatch; rw [hfind]; rfl⟩
  | none => exact absurd rfl (List.find?_eq_none.1 hfind _ hmem)

/-- Where the captures are determined, the order does not matter. -/
theorem fullMatch_of_unique {r : Regex} {s : List Char} {c : Captures} (h : Matches r s c)
    (hunique : ∀ c', Matches r s c' → c' = c) : fullMatch r s = some c := by
  obtain ⟨c', hc'⟩ := exists_fullMatch h
  rw [hc', hunique c' (matches_of_fullMatch hc')]

/-- Where a class takes the whole input, that is tried first. -/
theorem cuts_all {p : Char → Bool} {s : List Char} (h : ∀ c ∈ s, p c = true) : ∃ l, cuts p s = (s, []) :: l := by
  induction s with
  | nil => exact ⟨[], rfl⟩
  | cons c cs ih =>
    obtain ⟨l, hl⟩ := ih fun x hx => h x (List.mem_cons_of_mem _ hx)
    unfold cuts
    rw [if_pos (h c List.mem_cons_self), hl]
    exact ⟨_, rfl⟩

/-- When the rest of the input is matched behind the first hit, the order does not matter. -/
theorem fullMatch_seq_of_first {a b : Regex} {s : List Char} {h : Hit} {hs : List Hit} {c : Captures} (ha : run a s = h :: hs)
    (hb : fullMatch b h.rest = some c) : fullMatch (seq a b) s = some (h.caps ++ c) := by
  obtain ⟨h', hfind, rfl⟩ := Option.map_eq_some_iff.1 hb
  have hfirst : ((run b h.rest).map fun h' => (⟨h.text ++ h'.text, h.caps ++ h'.caps, h'.rest⟩ : Hit)).find? (fun h => h.rest.isEmpty) =
      some ⟨h.text ++ h'.text, h.caps ++ h'.caps, h'.rest⟩ := by
    rw [List.find?_map]
    exact congrArg (Option.map _) hfind
  unfold fullMatch
  rw [show run (seq a b) s = (run a s).flatMap _ from rfl, ha, List.flatMap_cons, List.find?_append, hfirst]
  rfl

/-! ## Matches of compound expressions -/

/-- A sequence matches part by part. -/
theorem matches_seq {a b : Regex} {s : List Char} {c : Captures} : Matches (seq a b) s c ↔
    ∃ s1 s2 c1 c2, s = s1 ++ s2 ∧ c = c1 ++ c2 ∧ Matches a s1 c1 ∧ Matches b s2 c2 := by
  constructor
  · intro h
    cases h with
    | seq ha hb => exact ⟨_, _, _, _, rfl, rfl, ha, hb⟩
  · intro h
    obtain ⟨s1, s2, c1, c2, rfl, rfl, ha, hb⟩ := h
    exact .seq ha hb

/-- One character of a class. -/
theorem matches_one {p : Char → Bool} {s : List Char} {c : Captures} : Matches (one p) s c ↔ ∃ x, s = [x] ∧ c = [] ∧ p x = true := by
  constructor
  · intro h
    cases h with
    | one h => exact ⟨_, rfl, rfl, h⟩
  · intro h
    obtain ⟨x, rfl, rfl, h⟩ := h
    exact .one h

/-- Any number of them. -/
theorem matches_many {p : Char → Bool} {s : List Char} {c : Captures} : Matches (many p) s c ↔ c = [] ∧ ∀ x ∈ s, p x = true := by
  constructor
  · intro h
    cases h with
    | many h => exact ⟨rfl, h⟩
  · intro h
    obtain ⟨rfl, h⟩ := h
    exact .many h

/-- An optional part matches nothing, or what it holds. -/
theorem matches_opt {a : Regex} {s : List Char} {c : Captures} : Matches (opt a) s c ↔ (s = [] ∧ c = []) ∨ Matches a s c := by
  constructor
  · intro h
    cases h with
    | none => exact .inl ⟨rfl, rfl⟩
    | some h => exact .inr h
  · intro h
    rcases h with ⟨rfl, rfl⟩ | h
    · exact .none
    · exact .some h

/-- A group captures what it matches. -/
theorem matches_group {n : Nat} {a : Regex} {s : List Char} {c : Captures} : Matches (group n a) s c ↔
    ∃ c', c = (n, s) :: c' ∧ Matches a s c' := by
  constructor
  · intro h
    cases h with
    | group h => exact ⟨_, rfl, h⟩
  · intro h
    obtain ⟨c', rfl, h⟩ := h
    exact .group h

/-! ## A literal and then characters of a class -/

/-- The text starts with the literal, and at least so many characters of the class follow it. -/
def Starts (l : List Char) (n : Nat) (p : Char → Bool) (s : List Char) : Prop := ∃ r, s = l ++ r ∧ n ≤ (r.takeWhile p).length

/-- The longest run of a class comes first. -/
theorem first_many (p : Char → Bool) (s : List Char) : first (many p) s = some ⟨s.takeWhile p, [], s.dropWhile p⟩ := by
  have hcuts : ∃ l, cuts p s = (s.takeWhile p, s.dropWhile p) :: l := by
    induction s with
    | nil => exact ⟨[], rfl⟩
    | cons c cs ih =>
      obtain ⟨l, hl⟩ := ih
      unfold cuts
      by_cases hc : p c = true
      · rw [if_pos hc, hl, List.takeWhile_cons_of_pos hc, List.dropWhile_cons_of_pos hc]
        exact ⟨_, rfl⟩
      · rw [if_neg hc, List.takeWhile_cons_of_neg hc, List.dropWhile_cons_of_neg hc]
        exact ⟨_, rfl⟩
  obtain ⟨l, hl⟩ := hcuts
  unfold first run
  rw [hl]
  rfl

/-- Behind a character of a class, the first hit is that of what follows. -/
theorem first_one_seq (p : Char → Bool) (a : Regex) (c : Char) (cs : List Char) (hc : p c = true) :
    first (seq (one p) a) (c :: cs) = (first a cs).map fun h => ⟨c :: h.text, h.caps, h.rest⟩ := by
  unfold first
  rw [show run (seq (one p) a) (c :: cs) = (run (one p) (c :: cs)).flatMap _ from rfl, show run (one p) (c :: cs) = [⟨[c], [], cs⟩] from if_pos hc,
    List.flatMap_singleton, List.head?_map]
  rfl

/-- Where the first character is not of the class, nothing is found. -/
theorem first_one_seq_none (p : Char → Bool) (a : Regex) (s : List Char) (h : ∀ c : Char, s.head? = some c → p c = false) :
    first (seq (one p) a) s = none := by
  cases s with
  | nil => rfl
  | cons c cs =>
    unfold first
    rw [show run (seq (one p) a) (c :: cs) = (run (one p) (c :: cs)).flatMap _ from rfl,
      show run (one p) (c :: cs) = [] from if_neg (Bool.eq_false_iff.1 (h c rfl))]
    rfl

/-- A run of a class is found when it is long enough. -/
theorem first_atLeast (p : Char → Bool) (n : Nat) : ∀ s : List Char, first (atLeast n p) s =
    if n ≤ (s.takeWhile p).length then some ⟨s.takeWhile p, [], s.dropWhile p⟩ else none := by
  induction n with
  | zero =>
    intro s
    rw [if_pos (Nat.zero_le _)]
    exact first_many p s
  | succ n ih =>
    intro s
    cases s with
    | nil => rfl
    | cons c cs =>
      show first (seq (one p) (atLeast n p)) (c :: cs) = _
      by_cases hc : p c = true
      · rw [first_one_seq p _ c cs hc, ih, List.takeWhile_cons_of_pos hc, List.dropWhile_cons_of_pos hc, List.length_cons]
        by_cases hle : n ≤ (cs.takeWhile p).length
        · rw [if_pos hle, if_pos (Nat.succ_le_succ hle)]
          rfl
        · rw [if_neg hle, if_neg fun h => hle (Nat.le_of_succ_le_succ h)]
          rfl
      · rw [first_one_seq_none, List.takeWhile_cons_of_neg hc, if_neg (show ¬n + 1 ≤ [].length from Nat.not_succ_le_zero n)]
        intro c' hc'
        cases hc'
        exact Bool.eq_false_iff.2 hc

/-- Where the literal and enough characters are, the first hit takes all characters of the class that follow. -/
theorem first_starts (l : List Char) (n : Nat) (p : Char → Bool) (r : List Char) (h : n ≤ (r.takeWhile p).length) :
    first (seq (lit l) (atLeast n p)) (l ++ r) = some ⟨l ++ r.takeWhile p, [], r.dropWhile p⟩ := by
  have hlit (l r : List Char) : run (lit l) (l ++ r) = [⟨l, [], r⟩] := by
    induction l with
    | nil => rfl
    | cons c cs ih =>
      show ((run (one (· == c)) (c :: (cs ++ r))).flatMap fun h => (run (lit cs) h.rest).map fun h' =>
        (⟨h.text ++ h'.text, h.caps ++ h'.caps, h'.rest⟩ : Hit)) = _
      rw [show run (one (· == c)) (c :: (cs ++ r)) = [⟨[c], [], cs ++ r⟩] from if_pos (beq_self_eq_true c), List.flatMap_singleton, ih]
      rfl
  have hrest := first_atLeast p n r
  rw [if_pos h] at hrest
  unfold first at hrest ⊢
  rw [show run (seq (lit l) (atLeast n p)) (l ++ r) = (run (lit l) (l ++ r)).flatMap _ from rfl, hlit, List.flatMap_singleton, List.head?_map,
    hrest]
  rfl

/-- A hit is the literal and all characters of the class that follow, which are enough. -/
theorem starts_of_first {l : List Char} {n : Nat} {p : Char → Bool} {s : List Char} {h : Hit}
    (hf : first (seq (lit l) (atLeast n p)) s = some h) : ∃ r, s = l ++ r ∧ n ≤ (r.takeWhile p).length ∧ h.text = l ++ r.takeWhile p := by
  have hlit (l s t : List Char) (c : Captures) (hm : Matches (lit l) t c) : t = l := by
    induction l generalizing t c with
    | nil =>
      cases hm
      rfl
    | cons x xs ih =>
      obtain ⟨t1, t2, c1, c2, rfl, rfl, h1, h2⟩ := matches_seq.1 hm
      obtain ⟨y, rfl, rfl, hy⟩ := matches_one.1 h1
      rw [ih t2 c2 h2, eq_of_beq hy]
      rfl
  have hlen (n : Nat) (t : List Char) (c : Captures) (hm : Matches (atLeast n p) t c) : n ≤ t.length ∧ ∀ x ∈ t, p x = true := by
    induction n generalizing t c with
    | zero => exact ⟨Nat.zero_le _, (matches_many.1 hm).2⟩
    | succ n ih =>
      obtain ⟨t1, t2, c1, c2, rfl, rfl, h1, h2⟩ := matches_seq.1 hm
      obtain ⟨y, rfl, rfl, hy⟩ := matches_one.1 h1
      obtain ⟨hle, hall⟩ := ih t2 c2 h2
      exact ⟨Nat.succ_le_succ hle, List.forall_mem_cons.2 ⟨hy, hall⟩⟩
  obtain ⟨t, c, rest⟩ := h
  obtain ⟨rfl, hm⟩ := mem_run.1 (List.mem_of_head? hf)
  obtain ⟨t1, t2, c1, c2, rfl, -, h1, h2⟩ := matches_seq.1 hm
  cases hlit l [] t1 c1 h1
  obtain ⟨hle, hall⟩ := hlen n t2 c2 h2
  have htake : n ≤ ((t2 ++ rest).takeWhile p).length := by
    rw [List.takeWhile_append_of_pos hall, List.length_append]
    exact hle.trans (Nat.le_add_right _ _)
  refine ⟨t2 ++ rest, List.append_assoc .., htake, ?_⟩
  have hfirst := first_starts l n p (t2 ++ rest) htake
  rw [← List.append_assoc, hf] at hfirst
  exact congrArg Hit.text (Option.some.inj hfirst)

/-! ## What a search finds -/

variable {r : Regex}

/-- Characters that were matched are skipped. -/
theorem scan_skip (x y : List Char) : scan r x.length (x ++ y) = scan r 0 y := by
  induction x with
  | nil => rfl
  | cons c cs ih => exact ih

/-- A search looks at one character after the other. -/
theorem scan_zero_cons (r : Regex) (c : Char) (cs : List Char) : scan r 0 (c :: cs) =
    match first r (c :: cs) with
    | none => .inl c :: scan r 0 cs
    | some h => if h.text.isEmpty then .inl c :: scan r 0 cs else .inr h.text :: scan r (h.text.length - 1) cs := rfl

/-- A character at which nothing is found. -/
theorem scan_cons {c : Char} {cs : List Char} (h : first r (c :: cs) = none) : scan r 0 (c :: cs) = .inl c :: scan r 0 cs := by
  rw [scan_zero_cons, h]

/-- It takes a match that is not empty. -/
theorem scan_match {t s : List Char} {h : Hit} (hf : first r (t ++ s) = some h) (ht : h.text = t) (hne : t ≠ []) :
    scan r 0 (t ++ s) = .inr t :: scan r 0 s := by
  obtain ⟨c, cs, rfl⟩ := List.exists_cons_of_ne_nil hne
  rw [List.cons_append] at hf ⊢
  rw [scan_zero_cons, hf]
  dsimp only
  rw [ht]
  exact congrArg (Sum.inr (c :: cs) :: ·) (scan_skip cs s)

/-- Characters at none of which something is found. -/
theorem scan_append {x y : List Char} (h : ∀ a b, x = a ++ b → b ≠ [] → first r (b ++ y) = none) :
    scan r 0 (x ++ y) = x.map Sum.inl ++ scan r 0 y := by
  induction x with
  | nil => rfl
  | cons c cs ih =>
    have hc : first r (c :: (cs ++ y)) = none := h [] (c :: cs) rfl nofun
    rw [List.cons_append, scan_cons hc, ih fun a b hab hb => h (c :: a) b (by rw [hab]; rfl) hb]
    rfl

/-- Where it takes a character, no match starts. -/
theorem scan_inl {c c' : Char} {cs : List Char} {z : List (Char ⊕ List Char)} (h : scan r 0 (c :: cs) = .inl c' :: z) :
    (∀ hit, first r (c :: cs) = some hit → hit.text = []) ∧ scan r 0 cs = z := by
  rw [scan_zero_cons] at h
  cases hf : first r (c :: cs) with
  | none =>
    rw [hf] at h
    exact ⟨nofun, (List.cons.inj h).2⟩
  | some hit =>
    rw [hf] at h
    dsimp only at h
    split at h
    · refine ⟨fun hit' heq => ?_, (List.cons.inj h).2⟩
      cases heq
      exact List.isEmpty_iff.1 ‹_›
    · exact nomatch (List.cons.inj h).1

/-- The rest of a search behind characters that it took. -/
theorem scan_map_inl {x y : List Char} {z : List (Char ⊕ List Char)} (h : scan r 0 (x ++ y) = x.map Sum.inl ++ z) : scan r 0 y = z := by
  induction x with
  | nil => exact h
  | cons c cs ih => exact ih (scan_inl h).2

/-- Where it takes a match, one starts. -/
theorem scan_inr {t s : List Char} {z : List (Char ⊕ List Char)} (h : scan r 0 (t ++ s) = .inr t :: z) :
    t ≠ [] ∧ (∃ hit, first r (t ++ s) = some hit ∧ hit.text = t) ∧ scan r 0 s = z := by
  cases hts : t ++ s with
  | nil =>
    rw [hts] at h
    cases h
  | cons c cs =>
    rw [hts, scan_zero_cons] at h
    cases hf : first r (c :: cs) with
    | none =>
      rw [hf] at h
      exact nomatch (List.cons.inj h).1
    | some hit =>
      rw [hf] at h
      dsimp only at h
      split at h
      · exact nomatch (List.cons.inj h).1
      · obtain ⟨htext, hrest⟩ := List.cons.inj h
        have htext : hit.text = t := Sum.inr.inj htext
        have hne : t ≠ [] := fun hnil => ‹¬_› (by rw [htext, hnil]; rfl)
        refine ⟨hne, ⟨hit, rfl, htext⟩, ?_⟩
        obtain ⟨d, ds, rfl⟩ := List.exists_cons_of_ne_nil hne
        cases hts
        rw [htext] at hrest
        rw [← hrest]
        exact (scan_skip ds s).symm

end Regex

end Vmem
