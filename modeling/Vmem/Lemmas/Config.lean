import Vmem.Config
import Vmem.Lemmas.Script
import Vmem.Lib.Spans

/-!
# What the reader of the configuration does

A piece of the file is read as what it says (`configLine_cases`), up to the width of the numbers, and a file as its last number for each key
(`configLines_ok`).
-/

namespace Vmem

namespace ConfigAux

open ConfigFile ScriptAux

/-! ## Characters -/

/-- White space is not in a key. -/
theorem isKey_of_space {c : Char} (h : isSpace c = true) : isKey c = false := by
  rcases isSpace_cases h with rfl | rfl | rfl | rfl | rfl | rfl
  all_goals decide

/-- What is in a key is no white space. -/
theorem isSpace_of_key {c : Char} (h : isKey c = true) : isSpace c = false :=
  Bool.eq_false_iff.2 fun hs => absurd ((isKey_of_space hs).symm.trans h) nofun

/-- What can be a key for `sscanf`. -/
def KeyText (key : Text) : Prop := key ≠ [] ∧ (∀ c ∈ key, isKey c = true) ∧ key.length ≤ 63

/-- The names of the keys can be read. -/
theorem keyText_name (k : Key) : KeyText k.name := by
  cases k
  all_goals exact ⟨nofun, List.all_eq_true.1 (by decide), by decide⟩

/-- Keys with the same name are the same. -/
theorem name_inj {k k' : Key} (h : k.name = k'.name) : k = k' := by
  cases k
  all_goals
    cases k'
    all_goals first
      | rfl
      | exact absurd h (by decide)

/-! ## Numbers -/

/-- White space stops digits. -/
theorem stops_spaces {w : Text} (hw : Spaces w) : Stops isDigit w := by
  intro c hc
  exact isDigit_of_isSpace (hw c (List.mem_of_head? hc))

/-- A number does not start with white space. -/
theorem decimal_head {t : Text} {n : Int} (h : Decimal t n) : ∃ c cs, t = c :: cs ∧ isSpace c = false := by
  obtain ⟨ds, hne, hds, h⟩ := h
  obtain ⟨d, ds, rfl⟩ := List.exists_cons_of_ne_nil hne
  rcases h with ⟨rfl | rfl, -⟩ | ⟨rfl, -⟩
  · exact ⟨d, ds, rfl, isSpace_of_isDigit (hds d List.mem_cons_self)⟩
  · exact ⟨'+', _, rfl, by decide⟩
  · exact ⟨'-', _, rfl, by decide⟩

/-- There is no white space in a number. -/
theorem decimal_space {t : Text} {n : Int} (h : Decimal t n) : ∀ c ∈ t, (!isSpace c) = true := by
  obtain ⟨ds, -, hds, h⟩ := h
  have hall : ∀ c ∈ ds, (!isSpace c) = true := fun c hc => by rw [isSpace_of_isDigit (hds c hc)]; rfl
  rcases h with ⟨rfl | rfl, -⟩ | ⟨rfl, -⟩
  · exact hall
  · exact List.forall_mem_cons.2 ⟨by decide, hall⟩
  · exact List.forall_mem_cons.2 ⟨by decide, hall⟩

/-- The first digit is no sign. -/
theorem not_sign {d : Char} (h : isDigit d = true) : d ≠ '-' ∧ d ≠ '+' := by
  refine ⟨fun heq => ?_, fun heq => ?_⟩
  all_goals
    rw [heq] at h
    exact absurd h (by decide)

/-- A text is one number at most. -/
theorem decimal_unique {t : Text} {n n' : Int} (h : Decimal t n) (h' : Decimal t n') : n = n' := by
  obtain ⟨ds, hne, hds, h⟩ := h
  obtain ⟨ds', hne', hds', h'⟩ := h'
  obtain ⟨d, es, rfl⟩ := List.exists_cons_of_ne_nil hne
  obtain ⟨d', es', rfl⟩ := List.exists_cons_of_ne_nil hne'
  obtain ⟨hm, hp⟩ := not_sign (hds d List.mem_cons_self)
  obtain ⟨hm', hp'⟩ := not_sign (hds' d' List.mem_cons_self)
  rcases h with ⟨rfl | rfl, rfl⟩ | ⟨rfl, rfl⟩
  · rcases h' with ⟨h' | h', rfl⟩ | ⟨h', rfl⟩
    · rw [h']
    · exact absurd (List.cons.inj h').1 hp
    · exact absurd (List.cons.inj h').1 hm
  · rcases h' with ⟨h' | h', rfl⟩ | ⟨h', rfl⟩
    · exact absurd (List.cons.inj h').1.symm hp'
    · rw [(List.cons.inj h').2]
    · exact absurd (List.cons.inj h').1 (by decide)
  · rcases h' with ⟨h' | h', rfl⟩ | ⟨h', rfl⟩
    · exact absurd (List.cons.inj h').1.symm hm'
    · exact absurd (List.cons.inj h').1 (by decide)
    · rw [(List.cons.inj h').2]

/-- A sign or none. -/
def Sign (sign r : Text) : Prop :=
  sign = ['+'] ∨ sign = ['-'] ∨ (sign = [] ∧ r.head? ≠ some '-' ∧ r.head? ≠ some '+')

/-- A number is read behind its sign. -/
theorem readLL_sign {sign r : Text} (hs : Sign sign r) : readLL (sign ++ r) =
    if (r.takeWhile isDigit).isEmpty then none
    else some (clampLL (if sign = ['-'] then -(digitsValue (r.takeWhile isDigit) : Int) else digitsValue (r.takeWhile isDigit)),
      r.dropWhile isDigit) := by
  rcases hs with rfl | rfl | ⟨rfl, hm, hp⟩
  · rfl
  · rfl
  · rw [List.nil_append]
    unfold readLL
    have hplain : (if r.head? = some '-' ∨ r.head? = some '+' then r.tail else r) = r := if_neg fun h => h.elim hm hp
    dsimp only
    rw [hplain, decide_eq_false hm]
    rfl

/-- Digits behind a sign or none, as they are read. -/
theorem readLL_eq {sign ds w : Text} (hs : Sign sign (ds ++ w)) (hne : ds ≠ []) (hds : ∀ c ∈ ds, isDigit c = true) (hw : Stops isDigit w) :
    readLL (sign ++ (ds ++ w)) = some (clampLL (if sign = ['-'] then -(digitsValue ds : Int) else digitsValue ds), w) := by
  rw [readLL_sign hs, takeWhile_span hds hw, dropWhile_span hds hw, if_neg fun h => hne (List.isEmpty_iff.1 h)]

/-- A number before white space is read, cut to 64 bits. -/
theorem readLL_decimal {num w : Text} {n : Int} (h : Decimal num n) (hw : Spaces w) : readLL (num ++ w) = some (clampLL n, w) := by
  obtain ⟨ds, hne, hds, h⟩ := h
  have hsign : Sign [] (ds ++ w) := by
    obtain ⟨d, es, rfl⟩ := List.exists_cons_of_ne_nil hne
    obtain ⟨hm, hp⟩ := not_sign (hds d List.mem_cons_self)
    exact .inr (.inr ⟨rfl, fun h => hm (Option.some.inj h), fun h => hp (Option.some.inj h)⟩)
  rcases h with ⟨rfl | rfl, rfl⟩ | ⟨rfl, rfl⟩
  · exact readLL_eq hsign hne hds (stops_spaces hw)
  · exact readLL_eq (show Sign ['+'] _ from .inl rfl) hne hds (stops_spaces hw)
  · exact readLL_eq (show Sign ['-'] _ from .inr (.inl rfl)) hne hds (stops_spaces hw)

/-- What is read as a number is one. -/
theorem decimal_of_readLL {s w : Text} {v : Int} (h : readLL s = some (v, w)) :
    ∃ num n, s = num ++ w ∧ Decimal num n ∧ v = clampLL n := by
  have hsign : ∃ sign r, s = sign ++ r ∧ Sign sign r := by
    by_cases hm : s.head? = some '-'
    · obtain ⟨r, rfl⟩ := List.head?_eq_some_iff.1 hm
      exact ⟨['-'], r, rfl, .inr (.inl rfl)⟩
    · by_cases hp : s.head? = some '+'
      · obtain ⟨r, rfl⟩ := List.head?_eq_some_iff.1 hp
        exact ⟨['+'], r, rfl, .inl rfl⟩
      · exact ⟨[], s, rfl, .inr (.inr ⟨rfl, hm, hp⟩)⟩
  obtain ⟨sign, r, rfl, hs⟩ := hsign
  have hr : r = r.takeWhile isDigit ++ r.dropWhile isDigit := List.takeWhile_append_dropWhile.symm
  rw [readLL_sign hs] at h
  split at h
  · cases h
  · cases h
    have hne : r.takeWhile isDigit ≠ [] := fun hnil => ‹¬_› (List.isEmpty_iff.2 hnil)
    refine ⟨sign ++ r.takeWhile isDigit, _, by rw [List.append_assoc, ← hr], ⟨_, hne, mem_takeWhile, ?_⟩, rfl⟩
    rcases hs with rfl | rfl | ⟨rfl, -⟩
    · exact .inl ⟨.inr rfl, rfl⟩
    · exact .inr ⟨rfl, rfl⟩
    · exact .inl ⟨.inl rfl, rfl⟩

/-! ## Assignments -/

/-- A key stops white space. -/
theorem stops_key {key r : Text} (h : KeyText key) : Stops isSpace (key ++ r) := by
  obtain ⟨hne, hall, -⟩ := h
  obtain ⟨c, cs, rfl⟩ := List.exists_cons_of_ne_nil hne
  exact stops_cons (isSpace_of_key (hall c List.mem_cons_self))

/-- White space and the sign stop what neither of them is. -/
theorem stops_equals {p : Char → Bool} (hp : p '=' = false) (hs : ∀ c, isSpace c = true → p c = false) {w s : Text} (hw : Spaces w) :
    Stops p (w ++ '=' :: s) := stops_append hw hs (stops_cons hp)

/-- A number stops white space. -/
theorem stops_decimal {num w : Text} {n : Int} (h : Decimal num n) : Stops isSpace (num ++ w) := by
  obtain ⟨c, cs, rfl, hc⟩ := decimal_head h
  exact stops_cons hc

/-- An assignment is read as what it says, with the number cut to its width. -/
theorem scanLine_assigns {t key : Text} {n : Int} (hkey : KeyText key) (h : Assigns t key n) : scanLine t = { count := 2, key, v := clampLL n } := by
  obtain ⟨w1, w2, w3, num, w4, rfl, hw1, hw2, hw3, hw4, hnum⟩ := h
  obtain ⟨hne, hall, hlen⟩ := hkey
  have h1 := dropWhile_span hw1 (stops_key (r := w2 ++ '=' :: (w3 ++ (num ++ w4))) ⟨hne, hall, hlen⟩)
  have h2 := takeWhile_span hall (stops_equals (p := isKey) (s := w3 ++ (num ++ w4)) (by decide) (fun _ => isKey_of_space) hw2)
  have hsign : Stops isSpace ('=' :: (w3 ++ (num ++ w4))) := stops_cons (by decide)
  have h3 := dropWhile_span hw2 hsign
  have h4 := dropWhile_span hw3 (stops_decimal (w := w4) hnum)
  have h5 : w4.dropWhile isSpace = [] := by
    rw [← List.append_nil w4, List.dropWhile_append_of_pos hw4]
    rfl
  have hk : ¬key.isEmpty = true := fun h => hne (List.isEmpty_iff.1 h)
  have hs : ¬(key ++ (w2 ++ '=' :: (w3 ++ (num ++ w4)))).isEmpty = true := by
    intro h
    exact hne (List.append_eq_nil_iff.1 (List.isEmpty_iff.1 h)).1
  unfold scanLine
  dsimp only
  rw [h1, h2, List.take_of_length_le hlen, if_neg hs, if_neg hk, List.drop_left, h3]
  simp only [h4, readLL_decimal hnum hw4, h5]
  rfl

/-- What is read completely is an assignment. -/
theorem scanLine_cases (t : Text) : (scanLine t).count ≠ 2 ∨ ∃ n, Assigns t (scanLine t).key n ∧ (scanLine t).v = clampLL n := by
  have ht : t = t.takeWhile isSpace ++ t.dropWhile isSpace := List.takeWhile_append_dropWhile.symm
  unfold scanLine
  dsimp only
  generalize t.dropWhile isSpace = s at ht
  have hs : s = (s.takeWhile isKey).take 63 ++ s.drop ((s.takeWhile isKey).take 63).length := by
    have hpre : (s.takeWhile isKey).take 63 <+: s := (List.take_prefix ..).trans (List.takeWhile_prefix _)
    exact List.prefix_iff_eq_append.1 hpre |>.symm
  generalize (s.takeWhile isKey).take 63 = key at hs
  generalize s.drop key.length = r at hs
  have hr : r = r.takeWhile isSpace ++ r.dropWhile isSpace := List.takeWhile_append_dropWhile.symm
  split
  · exact .inl (show (-1 : Int) ≠ 2 by decide)
  · split
    · exact .inl (show (0 : Int) ≠ 2 by decide)
    · split
      · rename_i s3 heq
        have hs3 : s3 = s3.takeWhile isSpace ++ s3.dropWhile isSpace := List.takeWhile_append_dropWhile.symm
        cases hread : readLL (s3.dropWhile isSpace) with
        | none => exact .inl (show (1 : Int) ≠ 2 by decide)
        | some x =>
          obtain ⟨v, w⟩ := x
          obtain ⟨num, n, hnum, hdec, rfl⟩ := decimal_of_readLL hread
          dsimp only
          split
          · have hw : Spaces w := List.dropWhile_eq_nil_iff.1 (List.isEmpty_iff.1 ‹_›)
            refine .inr ⟨n, ⟨t.takeWhile isSpace, r.takeWhile isSpace, s3.takeWhile isSpace, num, w, ?_, mem_takeWhile, mem_takeWhile,
              mem_takeWhile, hw, hdec⟩, rfl⟩
            rw [← hnum, ← hs3, ← heq, ← hr, ← hs, ← ht]
          · exact .inl (show (3 : Int) ≠ 2 by decide)
      · exact .inl (show (1 : Int) ≠ 2 by decide)

/-- A text assigns one number to one key. -/
theorem assigns_unique {t key key' : Text} {n n' : Int} (hkey : KeyText key) (hkey' : KeyText key') (h : Assigns t key n)
    (h' : Assigns t key' n') : key = key' ∧ n = n' := by
  have hscan := (scanLine_assigns hkey h).symm.trans (scanLine_assigns hkey' h')
  have hk : key = key' := congrArg Scanned.key hscan
  subst hk
  refine ⟨rfl, ?_⟩
  obtain ⟨w1, w2, w3, num, w4, rfl, hw1, hw2, hw3, hw4, hnum⟩ := h
  obtain ⟨w1', w2', w3', num', w4', heq, hw1', hw2', hw3', hw4', hnum'⟩ := h'
  obtain ⟨-, heq⟩ := span_unique heq hw1 (stops_key hkey) hw1' (stops_key hkey)
  have heq := List.append_cancel_left heq
  have hsign : isSpace '=' = false := by decide
  obtain ⟨-, heq⟩ := span_unique heq hw2 (stops_cons hsign) hw2' (stops_cons hsign)
  obtain ⟨-, heq⟩ := span_unique (List.cons_eq_cons.1 heq).2 hw3 (stops_decimal hnum) hw3' (stops_decimal hnum')
  have hstop (w : Text) (hw : Spaces w) : Stops (fun c => !isSpace c) w := by
    intro c hc
    show (!isSpace c) = false
    rw [hw c (List.mem_of_head? hc)]
    rfl
  obtain ⟨rfl, -⟩ := span_unique heq (decimal_space hnum) (hstop w4 hw4) (decimal_space hnum') (hstop w4' hw4')
  exact decimal_unique hnum hnum'

/-! ## A piece -/

/-- The field of a key, as it is read from a number. -/
def width (k : Key) (n : Int) : Size :=
  if n = -1 then
    match k with
    | .overhead => 0
    | _ => unlimited
  else BitVec.ofInt 64 (clampLL n) <<< 20

def put : Key → Size → Global → Global
  | .vram, b, g => { g with vramLimit := b }
  | .dram, b, g => { g with dramLimit := b }
  | .overhead, b, g => { g with ctxOverhead := b }

/-- A number is put in the field of its key. -/
theorem field_put (k k' : Key) (b : Size) (g : Global) : k.field (put k' b g) = if k = k' then b else k.field g := by
  cases k
  all_goals
    cases k'
    all_goals rfl

/-- Cutting to 64 bits keeps what is below -1. -/
theorem clampLL_lt {n : Int} : clampLL n < -1 ↔ n < -1 := by
  unfold clampLL
  omega

/-- It keeps -1. -/
theorem clampLL_eq {n : Int} : clampLL n = -1 ↔ n = -1 := by
  unfold clampLL
  omega

/-- The test for a blank rest finds blanks. -/
theorem blank_iff (t : Text) : (t.all fun c => c == ' ' || c == '\t' || c == '\r' || c == '\n') = true ↔ Blank t := by
  rw [List.all_eq_true]
  refine forall₂_congr fun c _ => ?_
  rw [Bool.or_eq_true, Bool.or_eq_true, Bool.or_eq_true, beq_iff_eq, beq_iff_eq, beq_iff_eq, beq_iff_eq, or_assoc, or_assoc]

/-- An assignment is not blank. -/
theorem not_blank_of_assigns {t key : Text} {n : Int} (h : Assigns t key n) : ¬Blank t := by
  intro hb
  obtain ⟨w1, w2, w3, num, w4, rfl, -⟩ := h
  exact absurd (hb '=' (by simp)) (by decide)

/-- A line says one thing at most. -/
theorem says_unique {l : Text} {x y : Option (Key × Int)} (hx : Says l x) (hy : Says l y) : x = y := by
  cases hx with
  | blank hb =>
    cases hy with
    | blank _ => rfl
    | assign h _ => exact absurd hb (not_blank_of_assigns h)
  | assign h _ =>
    cases hy with
    | blank hb => exact absurd hb (not_blank_of_assigns h)
    | assign h' _ =>
      obtain ⟨hk, rfl⟩ := assigns_unique (keyText_name _) (keyText_name _) h h'
      rw [name_inj hk]

/-- A piece that says nothing changes nothing, one that assigns a number changes the field of its key, and any other stops the broker. -/
theorem configLine_cases (n : Nat) (p : Text) (g : Global) :
    (Says p none ∧ configLine n p g = .ok g) ∨
    (∃ k m, Says p (some (k, m)) ∧ configLine n p g = .ok (put k (width k m) g)) ∨
    ((∀ x, ¬Says p x) ∧ ∃ e, configLine n p g = .error e) := by
  have hline : configLine n p g = if ((uncomment p).all fun c => c == ' ' || c == '\t' || c == '\r' || c == '\n') = true then pure g
      else
        if (scanLine (uncomment p)).count ≠ 2 ∨ (scanLine (uncomment p)).v < -1 then throw (.expected n)
        else
          let bytes : Size := if (scanLine (uncomment p)).v = -1 then unlimited else BitVec.ofInt 64 (scanLine (uncomment p)).v <<< 20
          if (scanLine (uncomment p)).key = Key.vram.name then pure { g with vramLimit := bytes }
          else if (scanLine (uncomment p)).key = Key.dram.name then pure { g with dramLimit := bytes }
          else if (scanLine (uncomment p)).key = Key.overhead.name then
            pure { g with ctxOverhead := if (scanLine (uncomment p)).v = -1 then 0 else bytes }
          else throw (.unknownKey n (scanLine (uncomment p)).key) := rfl
  rw [hline]
  by_cases hb : Blank (uncomment p)
  · rw [if_pos ((blank_iff _).2 hb)]
    exact .inl ⟨.blank hb, rfl⟩
  · rw [if_neg (mt (blank_iff _).1 hb)]
    -- what the piece may say, it is read as
    have hsays (x : Option (Key × Int)) (hx : Says p x) : ∃ (k : Key) (m : Int), -1 ≤ m ∧
        scanLine (uncomment p) = { count := 2, key := k.name, v := clampLL m } := by
      cases hx with
      | blank h => exact absurd h hb
      | @assign k m h hm => exact ⟨k, m, hm, scanLine_assigns (keyText_name k) h⟩
    by_cases hbad : (scanLine (uncomment p)).count ≠ 2 ∨ (scanLine (uncomment p)).v < -1
    · rw [if_pos hbad]
      refine .inr (.inr ⟨fun x hx => ?_, _, rfl⟩)
      obtain ⟨k, m, hm, hscan⟩ := hsays x hx
      rw [hscan] at hbad
      rcases hbad with h | h
      · exact h rfl
      · exact absurd (clampLL_lt.1 h) (Int.not_lt.2 hm)
    · rw [if_neg hbad]
      obtain ⟨hcount, hlow⟩ := not_or.1 hbad
      obtain ⟨m, hassigns, hv⟩ := (scanLine_cases (uncomment p)).resolve_left fun h => hcount h
      rw [hv, clampLL_lt, Int.not_lt] at hlow
      have hfield (k : Key) (hk : (scanLine (uncomment p)).key = k.name) : Says p (some (k, m)) := .assign (hk ▸ hassigns) hlow
      rw [hv]
      have hiff := @clampLL_eq m
      dsimp only
      by_cases h1 : (scanLine (uncomment p)).key = Key.vram.name
      · rw [if_pos h1]
        refine .inr (.inl ⟨.vram, m, hfield .vram h1, ?_⟩)
        unfold width
        simp only [hiff]
        rfl
      · rw [if_neg h1]
        by_cases h2 : (scanLine (uncomment p)).key = Key.dram.name
        · rw [if_pos h2]
          refine .inr (.inl ⟨.dram, m, hfield .dram h2, ?_⟩)
          unfold width
          simp only [hiff]
          rfl
        · rw [if_neg h2]
          by_cases h3 : (scanLine (uncomment p)).key = Key.overhead.name
          · rw [if_pos h3]
            refine .inr (.inl ⟨.overhead, m, hfield .overhead h3, ?_⟩)
            unfold width
            simp only [hiff]
            by_cases hm : m = -1
            · rw [if_pos hm, if_pos hm]
              rfl
            · rw [if_neg hm, if_neg hm, if_neg hm]
              rfl
          · rw [if_neg h3]
            refine .inr (.inr ⟨fun x hx => ?_, _, rfl⟩)
            obtain ⟨k, m', -, hscan⟩ := hsays x hx
            have hkey : (scanLine (uncomment p)).key = k.name := congrArg Scanned.key hscan
            cases k with
            | vram => exact h1 hkey
            | dram => exact h2 hkey
            | overhead => exact h3 hkey

/-! ## A file -/

/-- A file is allowed when its last line and the others are. -/
theorem allowed_snoc {ls : List Text} {l : Text} : Allowed (ls ++ [l]) ↔ Allowed ls ∧ ∃ x, Says l x := by
  unfold Allowed
  rw [List.forall_mem_append, List.forall_mem_singleton]

/-- The last number for a key is that of the last line, or of those before it. -/
theorem number_snoc {ls : List Text} {l : Text} {k : Key} {n : Int} : Number (ls ++ [l]) k n ↔
    Says l (some (k, n)) ∨ ((∀ m, ¬Says l (some (k, m))) ∧ Number ls k n) := by
  constructor
  · intro h
    rcases h with ⟨before, l', after, heq, hl', hafter⟩ | ⟨rfl, hno⟩
    · rcases List.eq_nil_or_concat after with rfl | ⟨after, last, rfl⟩
      · obtain ⟨-, rfl⟩ := List.append_inj' heq rfl |>.imp_right fun h => (List.cons.inj h).1
        exact .inl hl'
      · rw [List.concat_eq_append, ← List.cons_append, ← List.append_assoc] at heq
        obtain ⟨rfl, hlast⟩ := List.append_inj' heq rfl
        obtain rfl := (List.cons.inj hlast).1
        rw [List.concat_eq_append] at hafter
        refine .inr ⟨hafter l (List.mem_append_right _ List.mem_cons_self), .inl ⟨before, l', after, rfl, hl', fun x hx => ?_⟩⟩
        exact hafter x (List.mem_append_left _ hx)
    · refine .inr ⟨hno l (List.mem_append_right _ List.mem_cons_self), .inr ⟨rfl, fun x hx => ?_⟩⟩
      exact hno x (List.mem_append_left _ hx)
  · intro h
    rcases h with h | ⟨hno, h⟩
    · exact .inl ⟨ls, l, [], rfl, h, nofun⟩
    · rcases h with ⟨before, l', after, rfl, hl', hafter⟩ | ⟨rfl, hall⟩
      · refine .inl ⟨before, l', after ++ [l], by rw [List.append_assoc]; rfl, hl', ?_⟩
        exact List.forall_mem_append.2 ⟨hafter, List.forall_mem_singleton.2 hno⟩
      · exact .inr ⟨rfl, List.forall_mem_append.2 ⟨hall, List.forall_mem_singleton.2 hno⟩⟩

/-- A file has a number for each key, if only the default. -/
theorem exists_number (ls : List Text) (k : Key) : ∃ n, -1 ≤ n ∧ Number ls k n := by
  induction ls using List.reverseRecOn with
  | nil => exact ⟨-1, le_rfl, .inr ⟨rfl, nofun⟩⟩
  | append_singleton ls l ih =>
    by_cases h : ∃ m, Says l (some (k, m))
    · obtain ⟨m, hm⟩ := h
      have hle : -1 ≤ m := by
        cases hm with
        | assign _ hn => exact hn
      exact ⟨m, hle, number_snoc.2 (.inl hm)⟩
    · obtain ⟨n, hle, hn⟩ := ih
      exact ⟨n, hle, number_snoc.2 (.inr ⟨fun m hm => h ⟨m, hm⟩, hn⟩)⟩

/-- It has one at most. -/
theorem number_unique (ls : List Text) {k : Key} {n m : Int} : Number ls k n → Number ls k m → n = m := by
  induction ls using List.reverseRecOn with
  | nil =>
    intro h h'
    have hnil {n : Int} (h : Number [] k n) : n = -1 := by
      rcases h with ⟨before, l, after, heq, -⟩ | ⟨rfl, -⟩
      · exact nomatch (List.append_eq_nil_iff.1 heq.symm).2
      · rfl
    rw [hnil h, hnil h']
  | append_singleton ls l ih =>
    intro h h'
    rw [number_snoc] at h h'
    rcases h with h | ⟨hno, h⟩
    · rcases h' with h' | ⟨hno', -⟩
      · exact congrArg Prod.snd (Option.some.inj (says_unique h h'))
      · exact absurd h (hno' n)
    · rcases h' with h' | ⟨-, h'⟩
      · exact absurd h' (hno m)
      · exact ih h h'

/-- Reading lines is reading the first of them and then the others. -/
theorem configLines_append (ls ls' : List Text) : ∀ (no : Nat) (g : Global), configLines no (ls ++ ls') g =
    configLines no ls g >>= fun g' => configLines (no + ls.length) ls' g' := by
  induction ls with
  | nil => exact fun _ _ => rfl
  | cons l ls ih =>
    intro no g
    show (configLine no l g >>= fun g => configLines (no + 1) (ls ++ ls') g) = (configLine no l g >>= fun g => configLines (no + 1) ls g) >>= _
    cases configLine no l g with
    | error e => rfl
    | ok g =>
      show configLines (no + 1) (ls ++ ls') g = configLines (no + 1) ls g >>= _
      rw [ih, List.length_cons, Nat.add_right_comm no 1, Nat.add_assoc no]

/-- A file whose pieces are allowed is read, and every field is what the last number for its key is read as. -/
theorem configLines_ok (no : Nat) (ls : List Text) : Allowed ls → ∃ g, configLines no ls {} = .ok g ∧
    (∀ (k : Key) (m : Int), Number ls k m → k.field g = width k m) ∧ g.device = 0 ∧ g.host = 0 := by
  induction ls using List.reverseRecOn with
  | nil =>
    intro _
    refine ⟨{}, rfl, fun k m h => ?_, rfl, rfl⟩
    rw [number_unique [] h (.inr ⟨rfl, nofun⟩)]
    cases k
    all_goals rfl
  | append_singleton ls l ih =>
    intro h
    obtain ⟨hls, x, hx⟩ := allowed_snoc.1 h
    obtain ⟨g, hg, hfields, hdevice, hhost⟩ := ih hls
    have hlast : configLines no (ls ++ [l]) {} = configLine (no + ls.length) l g := by
      rw [configLines_append, hg]
      show (configLine (no + ls.length) l g >>= fun g => pure g) = _
      rw [bind_pure]
    rw [hlast]
    rcases configLine_cases (no + ls.length) l g with ⟨hs, hline⟩ | ⟨k', m', hs, hline⟩ | ⟨hno, -⟩
    · refine ⟨g, hline, fun k m hm => ?_, hdevice, hhost⟩
      rcases number_snoc.1 hm with hm | ⟨-, hm⟩
      · exact nomatch says_unique hs hm
      · exact hfields k m hm
    · refine ⟨_, hline, fun k m hm => ?_, ?_, ?_⟩
      · rw [field_put]
        rcases number_snoc.1 hm with hm | ⟨hno, hm⟩
        · cases says_unique hs hm
          rw [if_pos rfl]
        · have hne : k ≠ k' := by
            intro heq
            rw [heq] at hno
            exact hno m' hs
          rw [if_neg hne, hfields k m hm]
      · rw [← hdevice]
        cases k'
        all_goals rfl
      · rw [← hhost]
        cases k'
        all_goals rfl
    · exact absurd hx (hno x)

/-- A file with a piece that is not allowed is not read. -/
theorem configLines_error (ls : List Text) : ∀ (no : Nat) (g : Global), ¬Allowed ls → ∃ e, configLines no ls g = .error e := by
  induction ls with
  | nil => exact fun _ _ h => absurd nofun h
  | cons l ls ih =>
    intro no g h
    show ∃ e, (configLine no l g >>= fun g => configLines (no + 1) ls g) = .error e
    rcases configLine_cases no l g with ⟨hs, hline⟩ | ⟨k, m, hs, hline⟩ | ⟨-, e, hline⟩
    · rw [hline]
      exact ih (no + 1) g fun hls => h (List.forall_mem_cons.2 ⟨⟨_, hs⟩, hls⟩)
    · rw [hline]
      exact ih (no + 1) _ fun hls => h (List.forall_mem_cons.2 ⟨⟨_, hs⟩, hls⟩)
    · rw [hline]
      exact ⟨e, rfl⟩

/-! ## Amounts -/

/-- A number is cut to 64 bits and shifted left by 20. -/
theorem toNat_width {k : Key} {m : Int} (h : 0 ≤ m) : (width k m).toNat = min m.toNat (2 ^ 63 - 1) % 2 ^ 44 * 2 ^ 20 := by
  have hclamp : clampLL m = (min m.toNat (2 ^ 63 - 1) : Nat) := by
    unfold clampLL
    omega
  unfold width
  rw [if_neg (by omega), hclamp, BitVec.toNat_shiftLeft, BitVec.toNat_ofInt, Nat.shiftLeft_eq]
  omega

/-- What is read from one number is the amount of another in force, when the first leaves the second. -/
theorem inForce_width {k : Key} {n m : Int} (hn : -1 ≤ n) (hm : -1 ≤ m) :
    InForce (amount k n) (width k m) ↔ (amount k m).map (fun v => min v (2 ^ 63 - 1) % 2 ^ 44) = amount k n := by
  have hunlimited : unlimited.toNat = 2 ^ 64 - 1 := rfl
  have hpos (n : Int) (h : 0 ≤ n) : amount k n = some n.toNat := if_neg (by omega)
  rcases hm.eq_or_lt with rfl | hm
  · rcases hn.eq_or_lt with rfl | hn
    · cases k
      all_goals exact ⟨fun _ => rfl, fun _ => rfl⟩
    · rw [hpos n (by omega)]
      have hmany : ¬unlimited.toNat = n.toNat * 2 ^ 20 := by
        rw [hunlimited]
        omega
      cases k with
      | overhead =>
        show (0 : Size).toNat = n.toNat * 2 ^ 20 ↔ some 0 = some n.toNat
        rw [Option.some.injEq]
        show 0 = n.toNat * 2 ^ 20 ↔ _
        omega
      | vram => exact ⟨fun h => absurd h hmany, nofun⟩
      | dram => exact ⟨fun h => absurd h hmany, nofun⟩
  · have hwidth := toNat_width (k := k) (m := m) (by omega)
    rw [hpos m (by omega)]
    show _ ↔ some (min m.toNat (2 ^ 63 - 1) % 2 ^ 44) = amount k n
    rcases hn.eq_or_lt with rfl | hn
    · have hmany : width k m ≠ unlimited := by
        intro h
        rw [h, hunlimited] at hwidth
        omega
      cases k with
      | overhead =>
        show (width .overhead m).toNat = 0 * 2 ^ 20 ↔ some _ = some 0
        rw [hwidth, Option.some.injEq]
        omega
      | vram => exact ⟨fun h => absurd h hmany, nofun⟩
      | dram => exact ⟨fun h => absurd h hmany, nofun⟩
    · rw [hpos n (by omega), Option.some.injEq]
      show (width k m).toNat = n.toNat * 2 ^ 20 ↔ _
      rw [hwidth]
      omega

/-! ## Comments -/

/-- A comment is taken off once. -/
theorem uncomment_uncomment (l : Text) : uncomment (uncomment l) = uncomment l := by
  unfold uncomment
  rw [List.takeWhile_eq_self_iff]
  exact mem_takeWhile

/-- A line says the same without its comment. -/
theorem says_uncomment {l : Text} {x : Option (Key × Int)} : Says (uncomment l) x ↔ Says l x := by
  constructor
  · intro h
    cases h with
    | blank h => exact .blank (uncomment_uncomment l ▸ h)
    | assign h hn => exact .assign (uncomment_uncomment l ▸ h) hn
  · intro h
    cases h with
    | blank h => exact .blank ((uncomment_uncomment l).symm ▸ h)
    | assign h hn => exact .assign ((uncomment_uncomment l).symm ▸ h) hn

/-- So lines are allowed with and without comments. -/
theorem allowed_uncomment (ls : List Text) : Allowed (ls.map uncomment) ↔ Allowed ls := by
  unfold Allowed
  rw [List.forall_mem_map]
  simp only [says_uncomment]

/-- They have the same numbers. -/
theorem number_uncomment (ls : List Text) {k : Key} {n : Int} : Number (ls.map uncomment) k n ↔ Number ls k n := by
  induction ls using List.reverseRecOn with
  | nil => exact Iff.rfl
  | append_singleton ls l ih =>
    rw [List.map_append, List.map_singleton, number_snoc, number_snoc, ih]
    simp only [says_uncomment]

/-- A character that ends no line starts the first one. -/
theorem getlines_cons {c : Char} (cs : Text) (h : c ≠ '\n') : getlines '\n' (c :: cs) =
    match getlines '\n' cs with
    | [] => [[c]]
    | l :: ls => (c :: l) :: ls := if_neg h

/-- A comment starts at `#` and goes to the end of the line. -/
theorem uncommentAll_cons (inside : Bool) (c : Char) (cs : Text) : uncommentAll inside (c :: cs) =
    if c = '\n' then c :: uncommentAll false cs
    else if inside then uncommentAll true cs
    else if c = '#' then c :: uncommentAll true cs
    else c :: uncommentAll false cs := rfl

/-- Without the text of its comments a file has the same lines without comments. Inside a comment this holds of the lines behind it. -/
theorem lines_uncommentAll (text : Text) :
    (getlines '\n' (uncommentAll false text)).map uncomment = (getlines '\n' text).map uncomment ∧
    (getlines '\n' (uncommentAll true text)).tail.map uncomment = (getlines '\n' text).tail.map uncomment := by
  induction text with
  | nil => exact ⟨rfl, rfl⟩
  | cons c cs ih =>
    obtain ⟨hout, hin⟩ := ih
    by_cases hc : c = '\n'
    · subst hc
      exact ⟨congrArg ([] :: ·) hout, hout⟩
    · constructor
      · by_cases hhash : c = '#'
        · subst hhash
          have hstart (t : Text) : (getlines '\n' ('#' :: t)).map uncomment = [] :: (getlines '\n' t).tail.map uncomment := by
            rw [getlines_cons t hc]
            cases getlines '\n' t with
            | nil => rfl
            | cons l ls => rfl
          show (getlines '\n' ('#' :: uncommentAll true cs)).map uncomment = _
          rw [hstart, hstart, hin]
        · have hall : uncommentAll false (c :: cs) = c :: uncommentAll false cs := by
            rw [uncommentAll_cons, if_neg hc, if_neg Bool.false_ne_true, if_neg hhash]
          have hline (l : Text) : uncomment (c :: l) = c :: uncomment l := List.takeWhile_cons_of_pos (by simpa using hhash)
          have hstart (t : Text) : (getlines '\n' (c :: t)).map uncomment = match (getlines '\n' t).map uncomment with
              | [] => [[c]]
              | l :: ls => (c :: l) :: ls := by
            rw [getlines_cons t hc]
            cases getlines '\n' t with
            | nil => exact congrArg (fun l => [l]) (hline [])
            | cons l ls => exact congrArg (· :: _) (hline l)
          rw [hall, hstart, hstart, hout]
      · have hall : uncommentAll true (c :: cs) = uncommentAll true cs := by
          rw [uncommentAll_cons, if_neg hc, if_pos rfl]
        have htail : (getlines '\n' (c :: cs)).tail = (getlines '\n' cs).tail := by
          rw [getlines_cons cs hc]
          cases getlines '\n' cs with
          | nil => rfl
          | cons l ls => rfl
        rw [hall, htail, hin]

/-- A file is allowed with and without the text of its comments. -/
theorem allowed_uncommentAll (text : Text) : Allowed (getlines '\n' (uncommentAll false text)) ↔ Allowed (getlines '\n' text) := by
  rw [← allowed_uncomment, (lines_uncommentAll text).1, allowed_uncomment]

/-- It has the same numbers. -/
theorem number_uncommentAll (text : Text) {k : Key} {n : Int} :
    Number (getlines '\n' (uncommentAll false text)) k n ↔ Number (getlines '\n' text) k n := by
  rw [← number_uncomment, (lines_uncommentAll text).1, number_uncomment]

/-! ## Short lines -/

/-- Only the comment takes a newline off. -/
theorem uncomment_newline (l : Text) : uncomment (l ++ ['\n']) = uncomment l ∨ uncomment (l ++ ['\n']) = uncomment l ++ ['\n'] := by
  unfold uncomment
  rw [List.takeWhile_append]
  split
  · refine .inr ?_
    have hall : l.takeWhile (· ≠ '#') = l := (List.takeWhile_prefix _).eq_of_length ‹_›
    rw [hall]
    rfl
  · exact .inl rfl

/-- A newline at the end of an assignment is white space. -/
theorem assigns_newline {t key : Text} {n : Int} : Assigns (t ++ ['\n']) key n ↔ Assigns t key n := by
  constructor
  · intro ⟨w1, w2, w3, num, w4, heq, h1, h2, h3, h4, hnum⟩
    rcases List.eq_nil_or_concat w4 with rfl | ⟨w4, c, rfl⟩
    · -- the number does not end in a newline
      rw [List.append_nil] at heq
      have hlast : num.getLast? = some '\n' := by
        have h := congrArg List.getLast? heq
        obtain ⟨d, ds, rfl, -⟩ := decimal_head hnum
        simpa [List.getLast?_append, List.getLast?_cons] using h.symm
      exact absurd (decimal_space hnum '\n' (List.mem_of_getLast? hlast)) (by decide)
    · rw [List.concat_eq_append] at heq h4
      have hsnoc : t ++ ['\n'] = (w1 ++ (key ++ (w2 ++ '=' :: (w3 ++ (num ++ w4))))) ++ [c] := by simpa using heq
      obtain ⟨rfl, -⟩ := List.append_inj' hsnoc rfl
      exact ⟨w1, w2, w3, num, w4, rfl, h1, h2, h3, fun c hc => h4 c (List.mem_append_left _ hc), hnum⟩
  · intro ⟨w1, w2, w3, num, w4, heq, h1, h2, h3, h4, hnum⟩
    refine ⟨w1, w2, w3, num, w4 ++ ['\n'], by simp [heq], h1, h2, h3, ?_, hnum⟩
    exact List.forall_mem_append.2 ⟨h4, List.forall_mem_singleton.2 rfl⟩

/-- The newline behind a line says nothing. -/
theorem says_newline (l : Text) (x : Option (Key × Int)) : Says (l ++ ['\n']) x ↔ Says l x := by
  have hblank : Blank (uncomment (l ++ ['\n'])) ↔ Blank (uncomment l) := by
    rcases uncomment_newline l with h | h
    · rw [h]
    · rw [h]
      unfold Blank
      rw [List.forall_mem_append, List.forall_mem_singleton]
      exact and_iff_left (by decide)
  have hassigns (key : Text) (n : Int) : Assigns (uncomment (l ++ ['\n'])) key n ↔ Assigns (uncomment l) key n := by
    rcases uncomment_newline l with h | h
    · rw [h]
    · rw [h, assigns_newline]
  constructor
  · intro h
    cases h with
    | blank h => exact .blank (hblank.1 h)
    | assign h hn => exact .assign ((hassigns _ _).1 h) hn
  · intro h
    cases h with
    | blank h => exact .blank (hblank.2 h)
    | assign h hn => exact .assign ((hassigns _ _).2 h) hn

/-- Some line gives the key a number. -/
def Sets (ls : List Text) (k : Key) : Prop := ∃ l ∈ ls, ∃ m, Says l (some (k, m))

/-- The number of a key is the last one, or the first line has it. -/
theorem number_cons {l : Text} {ls : List Text} {k : Key} {n : Int} : Number (l :: ls) k n ↔
    (Sets ls k ∧ Number ls k n) ∨ (¬Sets ls k ∧ (Says l (some (k, n)) ∨ (n = -1 ∧ ∀ m, ¬Says l (some (k, m))))) := by
  constructor
  · intro h
    rcases h with ⟨before, l', after, heq, hl', hafter⟩ | ⟨rfl, hno⟩
    · cases before with
      | nil =>
        cases heq
        refine .inr ⟨fun h => ?_, .inl hl'⟩
        obtain ⟨x, hx, m, hm⟩ := h
        exact hafter x hx m hm
      | cons b before =>
        cases heq
        exact .inl ⟨⟨l', by simp, n, hl'⟩, .inl ⟨before, l', after, rfl, hl', hafter⟩⟩
    · refine .inr ⟨fun h => ?_, .inr ⟨rfl, hno l List.mem_cons_self⟩⟩
      obtain ⟨x, hx, m, hm⟩ := h
      exact hno x (List.mem_cons_of_mem _ hx) m hm
  · intro h
    rcases h with ⟨⟨x, hx, m, hm⟩, h⟩ | ⟨hno, h⟩
    · rcases h with ⟨before, l', after, rfl, hl', hafter⟩ | ⟨-, hall⟩
      · exact .inl ⟨l :: before, l', after, rfl, hl', hafter⟩
      · exact absurd hm (hall x hx m)
    · have hls : ∀ l' ∈ ls, ∀ m, ¬Says l' (some (k, m)) := fun l' hl' m hm => hno ⟨l', hl', m, hm⟩
      rcases h with h | ⟨rfl, h⟩
      · exact .inl ⟨[], l, ls, rfl, h, hls⟩
      · exact .inr ⟨rfl, List.forall_mem_cons.2 ⟨h, hls⟩⟩

/-- Pieces that say what the lines say, with more pieces that say nothing. -/
inductive Follow : List Text → List Text → Prop
  | nil : Follow [] []
  | line {p l : Text} {ps ls : List Text} (h : ∀ x, Says p x ↔ Says l x) (hrest : Follow ps ls) : Follow (p :: ps) (l :: ls)
  | blank {p : Text} {ps ls : List Text} (h : Says p none) (hrest : Follow ps ls) : Follow (p :: ps) ls

/-- Pieces that follow the lines are allowed when these are. -/
theorem Follow.allowed {ps ls : List Text} (h : Follow ps ls) : Allowed ps ↔ Allowed ls := by
  induction h with
  | nil => exact Iff.rfl
  | line h _ ih =>
    unfold Allowed at ih ⊢
    rw [List.forall_mem_cons, List.forall_mem_cons, ih]
    simp only [h]
  | blank h _ ih =>
    unfold Allowed at ih ⊢
    rw [List.forall_mem_cons, ih]
    exact and_iff_right ⟨none, h⟩

/-- They have the numbers of the lines. -/
theorem Follow.number {ps ls : List Text} (h : Follow ps ls) (k : Key) :
    (Sets ps k ↔ Sets ls k) ∧ ∀ n, Number ps k n ↔ Number ls k n := by
  induction h with
  | nil => exact ⟨Iff.rfl, fun _ => Iff.rfl⟩
  | line h _ ih =>
    obtain ⟨hsets, hnum⟩ := ih
    refine ⟨?_, fun n => ?_⟩
    · unfold Sets at hsets ⊢
      simp only [List.exists_mem_cons_iff, h, hsets]
    · rw [number_cons, number_cons, hsets, hnum]
      simp only [h]
  | @blank p ps ls h _ ih =>
    obtain ⟨hsets, hnum⟩ := ih
    have hp : ∀ m, ¬Says p (some (k, m)) := fun m hm => nomatch says_unique h hm
    refine ⟨?_, fun n => ?_⟩
    · rw [← hsets]
      unfold Sets
      rw [List.exists_mem_cons_iff]
      exact or_iff_right fun h => h.elim hp
    · rw [number_cons, ← hnum]
      constructor
      · intro h
        rcases h with ⟨-, h⟩ | ⟨hno, h⟩
        · exact h
        · rcases h with h | ⟨rfl, -⟩
          · exact absurd h (hp n)
          · exact .inr ⟨rfl, fun l hl m hm => hno ⟨l, hl, m, hm⟩⟩
      · intro h
        by_cases hs : Sets ps k
        · exact .inl ⟨hs, h⟩
        · refine .inr ⟨hs, .inr ⟨?_, hp⟩⟩
          rcases h with ⟨before, l, after, rfl, hl, -⟩ | ⟨rfl, -⟩
          · exact absurd ⟨l, by simp, n, hl⟩ hs
          · rfl

/-- A piece ends behind a newline or where there is no more room. -/
theorem fgetsAll_cons (size room : Nat) (c : Char) (cs : Text) : fgetsAll size room (c :: cs) =
    if c = '\n' ∨ room ≤ 1 then [c] :: fgetsAll size (size - 1) cs
    else match fgetsAll size (room - 1) cs with
      | [] => [[c]]
      | l :: ls => (c :: l) :: ls := rfl

/-- A line that the buffer holds is read in one piece, with its newline. -/
theorem fgetsAll_line (size : Nat) (rest : Text) : ∀ {l : Text} {room : Nat}, '\n' ∉ l → l.length < room →
    fgetsAll size room (l ++ '\n' :: rest) = (l ++ ['\n']) :: fgetsAll size (size - 1) rest := by
  intro l
  induction l with
  | nil => exact fun _ _ => if_pos (.inl rfl)
  | cons c cs ih =>
    intro room hl hroom
    rw [List.mem_cons, not_or] at hl
    rw [List.length_cons] at hroom
    rw [List.cons_append, fgetsAll_cons, if_neg (not_or.2 ⟨Ne.symm hl.1, by omega⟩), ih hl.2 (by omega)]
    rfl

/-- A line that fills the buffer is a piece of its own, without what follows it. -/
theorem fgetsAll_full (size : Nat) (rest : Text) : ∀ {l : Text}, '\n' ∉ l → l ≠ [] →
    fgetsAll size l.length (l ++ rest) = l :: fgetsAll size (size - 1) rest := by
  intro l
  induction l with
  | nil => exact fun _ h => absurd rfl h
  | cons c cs ih =>
    intro hl _
    rw [List.mem_cons, not_or] at hl
    rw [List.cons_append, fgetsAll_cons, List.length_cons, Nat.add_sub_cancel]
    cases cs with
    | nil => exact if_pos (.inr le_rfl)
    | cons d ds =>
      rw [if_neg (not_or.2 ⟨Ne.symm hl.1, by rw [List.length_cons]; omega⟩), ih hl.2 (List.cons_ne_nil _ _)]

/-- A last line that fits is one piece. -/
theorem fgetsAll_last (size : Nat) : ∀ {l : Text} {room : Nat}, '\n' ∉ l → l ≠ [] → l.length ≤ room → fgetsAll size room l = [l] := by
  intro l
  induction l with
  | nil => exact fun _ h => absurd rfl h
  | cons c cs ih =>
    intro room hl _ hroom
    rw [List.mem_cons, not_or] at hl
    rw [List.length_cons] at hroom
    rw [fgetsAll_cons]
    cases cs with
    | nil =>
      split
      · rfl
      · rfl
    | cons d ds =>
      rw [List.length_cons] at hroom
      rw [if_neg (not_or.2 ⟨Ne.symm hl.1, by omega⟩), ih hl.2 (List.cons_ne_nil _ _) (by rw [List.length_cons]; omega)]

/-- A line ends at its newline. -/
theorem getlines_line (rest : Text) {l : Text} (hl : '\n' ∉ l) : getlines '\n' (l ++ '\n' :: rest) = l :: getlines '\n' rest := by
  induction l with
  | nil => exact if_pos rfl
  | cons c cs ih =>
    rw [List.mem_cons, not_or] at hl
    rw [List.cons_append, getlines_cons _ (Ne.symm hl.1), ih hl.2]

/-- The last line may end without one. -/
theorem getlines_last {l : Text} (hl : '\n' ∉ l) (hne : l ≠ []) : getlines '\n' l = [l] := by
  induction l with
  | nil => exact absurd rfl hne
  | cons c cs ih =>
    rw [List.mem_cons, not_or] at hl
    rw [getlines_cons _ (Ne.symm hl.1)]
    cases cs with
    | nil => rfl
    | cons d ds => rw [ih hl.2 (List.cons_ne_nil _ _)]

/-- The pieces of a file without long lines follow its lines. -/
theorem follow_short (text : Text) (hshort : ∀ l ∈ getlines '\n' text, l.length ≤ 255) : Follow (fgetsAll 256 255 text) (getlines '\n' text) := by
  induction hn : text.length using Nat.strong_induction_on generalizing text with
  | h n ih =>
    subst hn
    by_cases hmem : '\n' ∈ text
    · obtain ⟨l, rest, rfl, hl⟩ := List.eq_append_cons_of_mem hmem
      rw [getlines_line rest hl] at hshort ⊢
      obtain ⟨hlen, hrest⟩ := List.forall_mem_cons.1 hshort
      have htail := ih rest.length (by simp; omega) rest hrest rfl
      rcases hlen.lt_or_eq with hlt | heq
      · rw [fgetsAll_line 256 rest hl hlt]
        exact .line (says_newline l) htail
      · rw [← heq, fgetsAll_full 256 ('\n' :: rest) hl (by rintro rfl; cases heq)]
        exact .line (fun _ => Iff.rfl) (.blank (.blank (List.forall_mem_singleton.2 (.inr (.inr (.inr rfl))))) htail)
    · cases text with
      | nil => exact .nil
      | cons c cs =>
        rw [getlines_last hmem (List.cons_ne_nil _ _)] at hshort ⊢
        rw [fgetsAll_last 256 hmem (List.cons_ne_nil _ _) (hshort _ List.mem_cons_self)]
        exact .line (fun _ => Iff.rfl) .nil

/-- Without the text of its comments a file has lines that are no longer. Inside a comment this holds of the lines behind it. -/
theorem lengths_uncommentAll (text : Text) :
    List.Forall₂ (fun l' l : Text => l'.length ≤ l.length) (getlines '\n' (uncommentAll false text)) (getlines '\n' text) ∧
    (getlines '\n' (uncommentAll true text)).headD [] = [] ∧
    List.Forall₂ (fun l' l : Text => l'.length ≤ l.length) (getlines '\n' (uncommentAll true text)).tail (getlines '\n' text).tail := by
  induction text with
  | nil => exact ⟨.nil, rfl, .nil⟩
  | cons c cs ih =>
    obtain ⟨hout, hhead, hin⟩ := ih
    have hcons (t : Text) (h : c ≠ '\n') : getlines '\n' (c :: t) = (c :: (getlines '\n' t).headD []) :: (getlines '\n' t).tail := by
      rw [getlines_cons t h]
      cases getlines '\n' t with
      | nil => rfl
      | cons l ls => rfl
    by_cases hc : c = '\n'
    · subst hc
      exact ⟨.cons le_rfl hout, rfl, hout⟩
    · rw [uncommentAll_cons, uncommentAll_cons, if_neg hc, if_neg hc, if_neg Bool.false_ne_true, if_pos rfl, hcons cs hc]
      refine ⟨?_, hhead, hin⟩
      split
      · rw [hcons _ hc, hhead]
        exact .cons (by simp) hin
      · rw [hcons _ hc]
        generalize getlines '\n' (uncommentAll false cs) = ls' at hout
        generalize getlines '\n' cs = ls at hout
        cases hout with
        | nil => exact .cons le_rfl .nil
        | cons h hrest => exact .cons (Nat.succ_le_succ h) hrest

/-- Without comments no line is longer. -/
theorem short_uncommentAll {text : Text} {n : Nat} (h : ∀ l ∈ getlines '\n' text, l.length ≤ n) :
    ∀ l ∈ getlines '\n' (uncommentAll false text), l.length ≤ n := by
  obtain ⟨hle, -⟩ := lengths_uncommentAll text
  intro l' hl'
  obtain ⟨i, hi, rfl⟩ := List.getElem_of_mem hl'
  have hlen := hle.length_eq
  exact (hle.get hi (hlen ▸ hi)).trans (h _ (List.get_mem _ _))

end ConfigAux

end Vmem
