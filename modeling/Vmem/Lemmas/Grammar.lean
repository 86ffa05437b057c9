import Vmem.Grammar
import Vmem.Lemmas.Script
import Vmem.Lib.Spans

/-!
# What the regular expressions accept

The expressions of the parser match what the grammar says, and each text in one way only: a run of characters of a class ends where the
next character is not of the class (`span_unique`). The exception is a name that ends in digits, where the matcher takes the longest name
first (`fullMatch_name`).
-/

namespace Vmem

namespace GrammarAux

open Grammar Regex ScriptAux

/-! ## Classes of characters -/

/-- What starts a name can be in one. -/
theorem isWord_of_isHead {c : Char} (h : isHead c = true) : isWord c = true := by
  unfold isWord
  rw [h]
  rfl

/-- Digits can be in a name. -/
theorem isWord_of_isDigit {c : Char} (h : isDigit c = true) : isWord c = true := by
  unfold isWord
  rw [h, Bool.or_true]

theorem isWord_of_isAlpha {c : Char} (h : isAlpha c = true) : isWord c = true := by
  unfold isWord isHead
  rw [h]
  rfl

/-- White space cannot. -/
theorem isWord_of_isSpace {c : Char} (h : isSpace c = true) : isWord c = false := by
  rcases isSpace_cases h with rfl | rfl | rfl | rfl | rfl | rfl
  all_goals decide

/-- A digit is no letter. -/
theorem isAlpha_of_isDigit {c : Char} (h : isDigit c = true) : isAlpha c = false := by
  unfold isDigit at h
  unfold isAlpha
  rw [Bool.and_eq_true, decide_eq_true_iff, decide_eq_true_iff, Char.le_def, Char.le_def] at h
  rw [Bool.or_eq_false_iff, Bool.and_eq_false_iff, Bool.and_eq_false_iff, decide_eq_false_iff_not, decide_eq_false_iff_not,
    decide_eq_false_iff_not, decide_eq_false_iff_not, Char.le_def, Char.le_def, Char.le_def, Char.le_def]
  have h9 := h.2
  simp only [UInt32.le_iff_toNat_le] at h9 ⊢
  exact ⟨.inl fun ha => absurd (ha.trans h9) (by decide), .inl fun ha => absurd (ha.trans h9) (by decide)⟩

/-- A digit does not start a name. -/
theorem isHead_of_isDigit {c : Char} (h : isDigit c = true) : isHead c = false := by
  unfold isHead
  rw [isAlpha_of_isDigit h, Bool.false_or, beq_eq_false_iff_ne]
  intro heq
  rw [heq] at h
  exact absurd h (by decide)

/-- A name is made of letters, digits and underscores. -/
theorem isWord_of_name {t : Text} (h : Name t) : ∀ c ∈ t, isWord c = true := by
  obtain ⟨c, cs, rfl, hc, hcs⟩ := h
  intro x hx
  rcases List.mem_cons.1 hx with rfl | hx
  · exact isWord_of_isHead hc
  · exact hcs x hx

/-- A name is not empty. -/
theorem name_ne_nil {t : Text} (h : Name t) : t ≠ [] := by
  obtain ⟨c, cs, rfl, -⟩ := h
  exact nofun

/-! ## Printable lines -/

/-- A text is printable when both parts are. -/
theorem printable_append {a b : Text} : Printable (a ++ b) ↔ Printable a ∧ Printable b := List.forall_mem_append

/-- In a printable text the white space is blanks. -/
theorem blank_of_space {w : Text} (hp : Printable w) (hw : ∀ c ∈ w, isSpace c = true) : Blank w := by
  intro c hc
  rcases isSpace_cases (hw c hc) with h | h | h | h | h | h
  · exact .inl h
  · exact .inr h
  all_goals
    rw [h] at hc
    exact absurd (hp _ hc) (by decide)

/-- Blanks are white space. -/
theorem space_of_blank {w : Text} (hw : Blank w) : ∀ c ∈ w, isSpace c = true := by
  intro c hc
  rcases hw c hc with rfl | rfl
  all_goals decide

/-- A printable text has no line ends. -/
theorem isDot_of_printable {t : Text} (h : Printable t) : ∀ c ∈ t, isDot c = true := by
  intro c hc
  unfold isDot
  rw [Bool.and_eq_true, bne_iff_ne, bne_iff_ne]
  refine ⟨fun heq => ?_, fun heq => ?_⟩
  all_goals
    rw [heq] at hc
    exact absurd (h _ hc) (by decide)

/-! ## The form of a call -/

/-- The expression for names matches names. -/
theorem matches_name {t : Text} {c : Captures} : Matches nameRe t c ↔ Name t ∧ c = [] := by
  unfold nameRe
  rw [matches_seq]
  constructor
  · intro h
    obtain ⟨s1, s2, c1, c2, rfl, rfl, h1, h2⟩ := h
    obtain ⟨x, rfl, rfl, hx⟩ := matches_one.1 h1
    obtain ⟨rfl, hall⟩ := matches_many.1 h2
    exact ⟨⟨x, s2, rfl, hx, hall⟩, rfl⟩
  · intro h
    obtain ⟨⟨x, xs, rfl, hx, hall⟩, rfl⟩ := h
    exact ⟨[x], xs, [], [], rfl, rfl, matches_one.2 ⟨x, rfl, rfl, hx⟩, matches_many.2 ⟨rfl, hall⟩⟩

/-- In a group it captures the name. -/
theorem matches_group_name {n : Nat} {t : Text} {c : Captures} : Matches (group n nameRe) t c ↔ Name t ∧ c = [(n, t)] := by
  rw [matches_group]
  constructor
  · intro h
    obtain ⟨c', rfl, h⟩ := h
    obtain ⟨hname, rfl⟩ := matches_name.1 h
    exact ⟨hname, rfl⟩
  · intro h
    obtain ⟨hname, rfl⟩ := h
    exact ⟨[], rfl, matches_name.2 ⟨hname, rfl⟩⟩

/-- A sign between blanks. -/
theorem matches_sign {sign : Char} {t : Text} {c : Captures} :
    Matches (seq (many isSpace) (seq (one (· == sign)) (many isSpace))) t c ↔
      c = [] ∧ ∃ w w' : Text, t = w ++ sign :: w' ∧ (∀ c ∈ w, isSpace c = true) ∧ ∀ c ∈ w', isSpace c = true := by
  rw [matches_seq]
  constructor
  · intro h
    obtain ⟨w, s2, c1, c2, rfl, rfl, h1, h2⟩ := h
    obtain ⟨s, w', c3, c4, rfl, rfl, h3, h4⟩ := matches_seq.1 h2
    obtain ⟨rfl, hw⟩ := matches_many.1 h1
    obtain ⟨x, rfl, rfl, hx⟩ := matches_one.1 h3
    obtain ⟨rfl, hw'⟩ := matches_many.1 h4
    cases eq_of_beq hx
    exact ⟨rfl, w, w', rfl, hw, hw'⟩
  · intro h
    obtain ⟨rfl, w, w', rfl, hw, hw'⟩ := h
    exact ⟨w, sign :: w', [], [], rfl, rfl, matches_many.2 ⟨rfl, hw⟩, matches_seq.2 ⟨[sign], w', [], [], rfl, rfl,
      matches_one.2 ⟨sign, rfl, rfl, beq_self_eq_true sign⟩, matches_many.2 ⟨rfl, hw'⟩⟩⟩

/-- A destination with its sign, or nothing. -/
theorem matches_head {t : Text} {c : Captures} :
    Matches (opt (seq (group 1 nameRe) (seq (many isSpace) (seq (one (· == '=')) (many isSpace))))) t c ↔
      (t = [] ∧ c = []) ∨ ∃ dst w w', t = dst ++ w ++ '=' :: w' ∧ c = [(1, dst)] ∧ Name dst ∧ (∀ c ∈ w, isSpace c = true) ∧
        ∀ c ∈ w', isSpace c = true := by
  rw [matches_opt, matches_seq]
  refine or_congr_right ⟨fun h => ?_, fun h => ?_⟩
  · obtain ⟨dst, s2, c1, c2, rfl, rfl, h1, h2⟩ := h
    obtain ⟨hname, rfl⟩ := matches_group_name.1 h1
    obtain ⟨rfl, w, w', rfl, hw, hw'⟩ := matches_sign.1 h2
    exact ⟨dst, w, w', (List.append_assoc ..).symm, rfl, hname, hw, hw'⟩
  · obtain ⟨dst, w, w', rfl, rfl, hname, hw, hw'⟩ := h
    exact ⟨dst, w ++ '=' :: w', _, [], List.append_assoc .., (List.append_nil _).symm, matches_group_name.2 ⟨hname, rfl⟩,
      matches_sign.2 ⟨rfl, w, w', rfl, hw, hw'⟩⟩

/-- A call: its name, blanks, and what is between the outer parentheses. -/
theorem matches_tail {t : Text} {c : Captures} :
    Matches (seq (group 2 nameRe) (seq (many isSpace) (seq (one (· == '(')) (seq (group 3 (many isDot)) (one (· == ')')))))) t c ↔
      ∃ name w inner, t = name ++ w ++ '(' :: (inner ++ [')']) ∧ c = [(2, name), (3, inner)] ∧ Name name ∧
        (∀ c ∈ w, isSpace c = true) ∧ ∀ c ∈ inner, isDot c = true := by
  rw [matches_seq]
  constructor
  · intro h
    obtain ⟨name, s2, c1, c2, rfl, rfl, h1, h2⟩ := h
    obtain ⟨w, s3, c3, c4, rfl, rfl, h3, h4⟩ := matches_seq.1 h2
    obtain ⟨s4, s5, c5, c6, rfl, rfl, h5, h6⟩ := matches_seq.1 h4
    obtain ⟨inner, s6, c7, c8, rfl, rfl, h7, h8⟩ := matches_seq.1 h6
    obtain ⟨hname, rfl⟩ := matches_group_name.1 h1
    obtain ⟨rfl, hw⟩ := matches_many.1 h3
    obtain ⟨x, rfl, rfl, hx⟩ := matches_one.1 h5
    obtain ⟨c9, rfl, h9⟩ := matches_group.1 h7
    obtain ⟨rfl, hinner⟩ := matches_many.1 h9
    obtain ⟨y, rfl, rfl, hy⟩ := matches_one.1 h8
    cases eq_of_beq hx
    cases eq_of_beq hy
    exact ⟨name, w, inner, (List.append_assoc ..).symm, rfl, hname, hw, hinner⟩
  · intro h
    obtain ⟨name, w, inner, rfl, rfl, hname, hw, hinner⟩ := h
    refine ⟨name, w ++ '(' :: (inner ++ [')']), _, _, List.append_assoc .., rfl, matches_group_name.2 ⟨hname, rfl⟩, matches_seq.2
      ⟨w, _, [], _, rfl, rfl, matches_many.2 ⟨rfl, hw⟩, matches_seq.2 ⟨['('], _, [], _, rfl, rfl, matches_one.2 ⟨'(', rfl, rfl, rfl⟩,
        matches_seq.2 ⟨inner, [')'], [(3, inner)], [], rfl, rfl, matches_group.2 ⟨[], rfl, matches_many.2 ⟨rfl, hinner⟩⟩,
          matches_one.2 ⟨')', rfl, rfl, rfl⟩⟩⟩⟩⟩

/-- A name, blanks and a sign: where each ends is determined. -/
theorem sign_unique {n w r n' w' r' : Text} {c c' : Char} (h : n ++ (w ++ c :: r) = n' ++ (w' ++ c' :: r')) (hn : ∀ x ∈ n, isWord x = true)
    (hw : ∀ x ∈ w, isSpace x = true) (hc : isWord c = false ∧ isSpace c = false) (hn' : ∀ x ∈ n', isWord x = true)
    (hw' : ∀ x ∈ w', isSpace x = true) (hc' : isWord c' = false ∧ isSpace c' = false) : n = n' ∧ c = c' ∧ r = r' := by
  have hs : Stops isWord (w ++ c :: r) := stops_append hw (fun _ => isWord_of_isSpace) (stops_cons hc.1)
  have hs' : Stops isWord (w' ++ c' :: r') := stops_append hw' (fun _ => isWord_of_isSpace) (stops_cons hc'.1)
  obtain ⟨hnn, hrest⟩ := span_unique h hn hs hn' hs'
  obtain ⟨-, hcons⟩ := span_unique hrest hw (stops_cons hc.2) hw' (stops_cons hc'.2)
  obtain ⟨hcc, hrr⟩ := List.cons_eq_cons.1 hcons
  exact ⟨hnn, hcc, hrr⟩

/-- A name stops white space. -/
theorem stops_name {n r : Text} (h : Name n) : Stops isSpace (n ++ r) := by
  obtain ⟨c, cs, rfl, hc, -⟩ := h
  refine stops_cons (Bool.eq_false_iff.2 fun hs => ?_)
  exact absurd ((isWord_of_isSpace hs).symm.trans (isWord_of_isHead hc)) nofun

/-- A call is cut in one way. -/
theorem form_unique {t d n i d' n' i' : Text} (h : Form t d n i) (h' : Form t d' n' i') : d = d' ∧ n = n' ∧ i = i' := by
  obtain ⟨head, w, ht, hn, hw, hh⟩ := h
  obtain ⟨head', w', ht', hn', hw', hh'⟩ := h'
  have heq : head ++ (n ++ (w ++ '(' :: (i ++ [')']))) = head' ++ (n' ++ (w' ++ '(' :: (i' ++ [')']))) := by
    simpa only [List.append_assoc] using ht.symm.trans ht'
  have hopen : isWord '(' = false ∧ isSpace '(' = false := by decide
  have hsign : isWord '=' = false ∧ isSpace '=' = false := by decide
  rcases hh with ⟨rfl, rfl⟩ | ⟨hd, w1, w2, rfl, hw1, hw2⟩
  · rcases hh' with ⟨rfl, rfl⟩ | ⟨hd', w1', w2', rfl, hw1', hw2'⟩
    · obtain ⟨hnn, -, hii⟩ := sign_unique heq (isWord_of_name hn) (space_of_blank hw) hopen (isWord_of_name hn') (space_of_blank hw') hopen
      exact ⟨rfl, hnn, List.append_cancel_right hii⟩
    · rw [List.append_assoc, List.append_assoc] at heq
      obtain ⟨-, hcc, -⟩ := sign_unique heq (isWord_of_name hn) (space_of_blank hw) hopen (isWord_of_name hd') (space_of_blank hw1') hsign
      exact absurd hcc (by decide)
  · rcases hh' with ⟨rfl, rfl⟩ | ⟨hd', w1', w2', rfl, hw1', hw2'⟩
    · rw [List.append_assoc, List.append_assoc] at heq
      obtain ⟨-, hcc, -⟩ := sign_unique heq (isWord_of_name hd) (space_of_blank hw1) hsign (isWord_of_name hn') (space_of_blank hw') hopen
      exact absurd hcc (by decide)
    · rw [List.append_assoc, List.append_assoc, List.append_assoc, List.append_assoc] at heq
      obtain ⟨hdd, -, hrest⟩ := sign_unique heq (isWord_of_name hd) (space_of_blank hw1) hsign (isWord_of_name hd') (space_of_blank hw1') hsign
      obtain ⟨-, htail⟩ := span_unique hrest (space_of_blank hw2) (stops_name hn) (space_of_blank hw2') (stops_name hn')
      obtain ⟨hnn, -, hii⟩ := sign_unique htail (isWord_of_name hn) (space_of_blank hw) hopen (isWord_of_name hn') (space_of_blank hw') hopen
      exact ⟨hdd, hnn, List.append_cancel_right hii⟩

/-- What matches has the form of a call. -/
theorem form_of_matches {t : Text} {m : Captures} (hp : Printable t) (h : Matches callRe t m) : Form t (m.text 1) (m.text 2) (m.text 3) := by
  obtain ⟨head, tl, c1, c2, rfl, rfl, h1, h2⟩ := matches_seq.1 h
  obtain ⟨name, w, inner, rfl, rfl, hname, hw, -⟩ := matches_tail.1 h2
  rw [printable_append, printable_append, printable_append] at hp
  rcases matches_head.1 h1 with ⟨rfl, rfl⟩ | ⟨dst, w1, w2, rfl, rfl, hdst, hw1, hw2⟩
  · exact ⟨[], w, rfl, hname, blank_of_space hp.2.1.2 hw, .inl ⟨rfl, rfl⟩⟩
  · rw [printable_append, printable_append] at hp
    refine ⟨dst ++ w1 ++ '=' :: w2, w, by simp only [List.append_assoc]; rfl, hname, blank_of_space hp.2.1.2 hw, .inr
      ⟨hdst, w1, w2, rfl, blank_of_space hp.1.1.2 hw1, blank_of_space (fun c hc => hp.1.2 c (List.mem_cons_of_mem _ hc)) hw2⟩⟩

/-- What has the form of a call matches. -/
theorem matches_of_form {t d n i : Text} (hp : Printable t) (h : Form t d n i) : ∃ m, Matches callRe t m := by
  obtain ⟨head, w, rfl, hn, hw, hh⟩ := h
  have hi : Printable i := fun c hc => hp c (by simp [hc])
  have htail := matches_tail.2 ⟨n, w, i, rfl, rfl, hn, space_of_blank hw, isDot_of_printable hi⟩
  rcases hh with ⟨-, rfl⟩ | ⟨hd, w1, w2, rfl, hw1, hw2⟩
  · exact ⟨_, matches_seq.2 ⟨[], _, [], _, rfl, rfl, matches_head.2 (.inl ⟨rfl, rfl⟩), htail⟩⟩
  · exact ⟨_, matches_seq.2 ⟨_, _, [(1, d)], _, by simp only [List.append_assoc], rfl,
      matches_head.2 (.inr ⟨d, w1, w2, rfl, rfl, hd, space_of_blank hw1, space_of_blank hw2⟩), htail⟩⟩

/-- The expression for a line reads the form of a call, and what it captures is what the form names. -/
theorem form_iff {t d n i : Text} (hp : Printable t) :
    Form t d n i ↔ ∃ m, callRe.fullMatch t = some m ∧ d = m.text 1 ∧ n = m.text 2 ∧ i = m.text 3 := by
  constructor
  · intro h
    obtain ⟨m, hm⟩ := matches_of_form hp h
    obtain ⟨m', hm'⟩ := exists_fullMatch hm
    exact ⟨m', hm', form_unique h (form_of_matches hp (matches_of_fullMatch hm'))⟩
  · intro h
    obtain ⟨m, hm, rfl, rfl, rfl⟩ := h
    exact form_of_matches hp (matches_of_fullMatch hm)

end GrammarAux

end Vmem
