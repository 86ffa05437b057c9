import Vmem.Lemmas.Arguments

/-!
# Lines of the grammar

Trimming and splitting at commas cut a line into the arguments of the grammar (`arguments_iff`), so what is parsed is exactly a sentence
(`sentence_iff`).
-/

namespace Vmem

namespace GrammarAux

open Grammar Regex ScriptAux

/-! ## Trimming -/

/-- No blank at either end. -/
def Bare (t : Text) : Prop := Stops isBlank t ∧ Stops isBlank t.reverse

/-- What trimming takes away, and that it takes all. -/
theorem trim_spec (t : Text) : ∃ w w', t = w ++ trim t ++ w' ∧ (∀ c ∈ w, isBlank c = true) ∧ (∀ c ∈ w', isBlank c = true) ∧
    Bare (trim t) := by
  have h1 : t.takeWhile isBlank ++ t.dropWhile isBlank = t := List.takeWhile_append_dropWhile
  have h2 : trim t ++ ((t.dropWhile isBlank).reverse.takeWhile isBlank).reverse = t.dropWhile isBlank := by
    unfold trim
    rw [← List.reverse_append, List.takeWhile_append_dropWhile, List.reverse_reverse]
  refine ⟨t.takeWhile isBlank, ((t.dropWhile isBlank).reverse.takeWhile isBlank).reverse, ?_, mem_takeWhile, ?_, ?_, ?_⟩
  · rw [List.append_assoc, h2, h1]
  · intro c hc
    exact mem_takeWhile c (List.mem_reverse.1 hc)
  · intro c hc
    refine stops_dropWhile isBlank t c ?_
    rw [← h2, List.head?_append, hc]
    rfl
  · unfold trim
    rw [List.reverse_reverse]
    exact stops_dropWhile _ _

/-- A text between blanks is what trimming leaves. -/
theorem trim_of_bare {t w w' : Text} (hw : ∀ c ∈ w, isBlank c = true) (hw' : ∀ c ∈ w', isBlank c = true) (ht : Bare t) :
    trim (w ++ t ++ w') = t := by
  have hwr : ∀ c ∈ w'.reverse, isBlank c = true := fun c hc => hw' c (List.mem_reverse.1 hc)
  unfold trim
  cases t with
  | nil =>
    have hdrop : (w ++ [] ++ w').dropWhile isBlank = [] := by
      rw [List.append_nil, List.dropWhile_append_of_pos hw, ← List.append_nil w', List.dropWhile_append_of_pos hw']
      rfl
    rw [hdrop]
    rfl
  | cons c cs =>
    have hstop : Stops isBlank (c :: cs ++ w') := stops_cons (ht.1 c rfl)
    rw [List.append_assoc, dropWhile_span hw hstop, List.reverse_append, dropWhile_span hwr ht.2, List.reverse_reverse]

/-- Blanks before a text are trimmed. -/
theorem trim_append_left {w : Text} (t : Text) (hw : ∀ c ∈ w, isBlank c = true) : trim (w ++ t) = trim t := by
  unfold trim
  rw [List.dropWhile_append_of_pos hw]

theorem trim_append_right (t : Text) {w : Text} (hw : ∀ c ∈ w, isBlank c = true) : trim (t ++ w) = trim t := by
  obtain ⟨v, v', ht, hv, hv', hbare⟩ := trim_spec t
  calc trim (t ++ w) = trim (v ++ trim t ++ (v' ++ w)) := by rw [← List.append_assoc, ← ht]
    _ = trim t := trim_of_bare hv (List.forall_mem_append.2 ⟨hv', hw⟩) hbare

/-- What is trimmed to nothing was blank. -/
theorem all_blank_of_trim {t : Text} (h : trim t = []) : ∀ c ∈ t, isBlank c = true := by
  obtain ⟨w, w', ht, hw, hw', -⟩ := trim_spec t
  rw [h, List.append_nil] at ht
  rw [ht]
  exact List.forall_mem_append.2 ⟨hw, hw'⟩

/-- The blanks, one by one. -/
theorem isBlank_iff {c : Char} : isBlank c = true ↔ c = ' ' ∨ c = '\t' ∨ c = '\r' := by
  unfold isBlank
  rw [Bool.or_eq_true, Bool.or_eq_true, beq_iff_eq, beq_iff_eq, beq_iff_eq, or_assoc]

/-- In a printable text the blanks are those of the grammar. -/
theorem blank_iff {w : Text} (hp : Printable w) : (∀ c ∈ w, isBlank c = true) ↔ Blank w := by
  refine forall₂_congr fun c hc => ?_
  rw [isBlank_iff, ← or_assoc]
  refine ⟨fun h => h.resolve_right fun hr => ?_, .inl⟩
  rw [hr] at hc
  exact absurd (hp _ hc) (by decide)

/-- A blank text is made of them. -/
theorem isBlank_of_blank {w : Text} (h : Blank w) : ∀ c ∈ w, isBlank c = true :=
  fun c hc => isBlank_iff.2 ((h c hc).imp_right .inl)

/-- No blank is in a word. -/
theorem isWord_of_isBlank {c : Char} (h : isBlank c = true) : isWord c = false := by
  rcases isBlank_iff.1 h with rfl | rfl | rfl
  all_goals decide

/-! ## Commas -/

/-- A text is cut at its first separator. -/
theorem getlines_append {d : Char} {p : Text} (q : Text) (hp : d ∉ p) : getlines d (p ++ d :: q) = p :: getlines d q := by
  induction p with
  | nil => exact if_pos rfl
  | cons c cs ih =>
    have hne : d ≠ c := fun heq => hp (heq ▸ List.mem_cons_self)
    have hcs : d ∉ cs := fun hm => hp (List.mem_cons_of_mem _ hm)
    rw [List.cons_append, getlines, if_neg (Ne.symm hne), ih hcs]

/-- The texts between the commas. -/
def pieces (t : Text) : List Text := getlines ',' (t ++ [','])

/-- A text without commas is one piece. -/
theorem pieces_last {t : Text} (h : ',' ∉ t) : pieces t = [t] := getlines_append [] h

/-- A piece ends at the first comma. -/
theorem pieces_more {p q : Text} (h : ',' ∉ p) : pieces (p ++ ',' :: q) = p :: pieces q := by
  unfold pieces
  rw [List.append_assoc]
  exact getlines_append _ h

/-- Split at the first comma. -/
theorem comma_cases (t : Text) : ',' ∉ t ∨ ∃ p q, t = p ++ ',' :: q ∧ ',' ∉ p := by
  by_cases h : ',' ∈ t
  · exact .inr (List.eq_append_cons_of_mem h)
  · exact .inl h

/-- There is at least one piece. -/
theorem pieces_ne_nil (t : Text) : pieces t ≠ [] := by
  rcases comma_cases t with h | ⟨p, q, rfl, h⟩
  · rw [pieces_last h]
    exact nofun
  · rw [pieces_more h]
    exact nofun

/-- Blanks have no comma. -/
theorem comma_of_blank {w : Text} (hw : ∀ c ∈ w, isBlank c = true) : ',' ∉ w := fun h => absurd (hw _ h) (by decide)

/-- Blanks before the pieces are trimmed. -/
theorem pieces_left {w : Text} (t : Text) (hw : ∀ c ∈ w, isBlank c = true) : (pieces (w ++ t)).map trim = (pieces t).map trim := by
  have happ {p : Text} (h : ',' ∉ p) : ',' ∉ w ++ p := fun hm => (List.mem_append.1 hm).elim (comma_of_blank hw) h
  rcases comma_cases t with h | ⟨p, q, rfl, h⟩
  · rw [pieces_last h, pieces_last (happ h), List.map_singleton, List.map_singleton, trim_append_left t hw]
  · rw [pieces_more h, ← List.append_assoc, pieces_more (happ h), List.map_cons, List.map_cons, trim_append_left p hw]

theorem pieces_right {w : Text} (hw : ∀ c ∈ w, isBlank c = true) (n : Nat) : ∀ t : Text, t.length = n →
    (pieces (t ++ w)).map trim = (pieces t).map trim := by
  induction n using Nat.strong_induction_on with
  | _ n ih =>
    intro t hn
    rcases comma_cases t with h | ⟨p, q, rfl, h⟩
    · have happ : ',' ∉ t ++ w := fun hm => (List.mem_append.1 hm).elim h (comma_of_blank hw)
      rw [pieces_last h, pieces_last happ, List.map_singleton, List.map_singleton, trim_append_right t hw]
    · have hlt : q.length < n := by
        rw [← hn, List.length_append, List.length_cons]
        omega
      rw [pieces_more h, List.append_assoc]
      show (pieces (p ++ ',' :: (q ++ w))).map trim = _
      rw [pieces_more h, List.map_cons, List.map_cons, ih q.length hlt q rfl]

/-- The texts of the arguments are the trimmed pieces, or there are none. -/
theorem argTexts_eq (inner : Text) : argTexts inner = if trim inner = [] then [] else (pieces inner).map trim := by
  obtain ⟨w, w', ht, hw, hw', -⟩ := trim_spec inner
  have hpieces : (pieces inner).map trim = (pieces (trim inner)).map trim := by
    conv_lhs => rw [ht]
    rw [pieces_right hw' _ _ rfl, pieces_left _ hw]
  rw [hpieces]
  unfold argTexts
  dsimp only
  simp only [List.isEmpty_iff]
  rfl

/-! ## Arguments -/

/-- A text that is neither cut by trimming nor by a comma. -/
structure Token (t : Text) : Prop where
  ne_nil : t ≠ []
  comma : ',' ∉ t
  bare : Bare t

/-- The arguments of a printable text are printable. -/
theorem printable_arguments {inner : Text} {ts : List Text} (h : Arguments inner ts) (hp : Printable inner) : ∀ t ∈ ts, Printable t := by
  have hpad {p t : Text} (hp : Printable p) (h : Padded p t) : Printable t := by
    obtain ⟨w, w', rfl, -, -⟩ := h
    exact (printable_append.1 (printable_append.1 hp).1).2
  induction h with
  | none h => exact nofun
  | last h =>
    intro t ht
    rw [List.mem_singleton.1 ht]
    exact hpad hp h
  | more h _ _ ih =>
    obtain ⟨h1, h2⟩ := printable_append.1 hp
    intro t ht
    rcases List.mem_cons.1 ht with rfl | ht
    · exact hpad h1 h
    · exact ih (fun c hc => h2 c (List.mem_cons_of_mem _ hc)) t ht

/-- A text is its trimmed text with blanks around. -/
theorem padded_trim {p : Text} (hp : Printable p) : Padded p (trim p) := by
  obtain ⟨w, w', ht, hw, hw', -⟩ := trim_spec p
  rw [ht, printable_append, printable_append] at hp
  exact ⟨w, w', ht, (blank_iff hp.1.1).1 hw, (blank_iff hp.2).1 hw'⟩

/-- A token with blanks around is trimmed to it. -/
theorem trim_padded {p t : Text} (h : Padded p t) (ht : Token t) : trim p = t ∧ ',' ∉ p := by
  obtain ⟨w, w', rfl, hw, hw'⟩ := h
  refine ⟨trim_of_bare (isBlank_of_blank hw) (isBlank_of_blank hw') ht.bare, fun hm => ?_⟩
  rcases List.mem_append.1 hm with hm | hm
  · exact (List.mem_append.1 hm).elim (comma_of_blank (isBlank_of_blank hw)) ht.comma
  · exact comma_of_blank (isBlank_of_blank hw') hm

/-- The trimmed pieces of a printable text are its arguments. -/
theorem arguments_pieces (n : Nat) : ∀ t : Text, t.length = n → Printable t → Arguments t ((pieces t).map trim) := by
  induction n using Nat.strong_induction_on with
  | _ n ih =>
    intro t hn hp
    rcases comma_cases t with h | ⟨p, q, rfl, h⟩
    · rw [pieces_last h]
      exact .last (padded_trim hp)
    · have hlt : q.length < n := by
        rw [← hn, List.length_append, List.length_cons]
        omega
      obtain ⟨h1, h2⟩ := printable_append.1 hp
      rw [pieces_more h]
      refine .more (padded_trim h1) (ih q.length hlt q rfl fun c hc => h2 c (List.mem_cons_of_mem _ hc)) fun hnil => ?_
      exact pieces_ne_nil q (List.map_eq_nil_iff.1 hnil)

/-- What is between the parentheses is the arguments that were cut out. -/
theorem arguments_argTexts {inner : Text} (hp : Printable inner) : Arguments inner (argTexts inner) := by
  rw [argTexts_eq]
  split
  · exact .none ((blank_iff hp).1 (all_blank_of_trim ‹_›))
  · exact arguments_pieces _ inner rfl hp

/-- Arguments that are tokens are cut out as they are. -/
theorem argTexts_of_arguments {inner : Text} {ts : List Text} (h : Arguments inner ts) : (∀ t ∈ ts, Token t) → argTexts inner = ts := by
  induction h with
  | @none inner h =>
    intro _
    rw [argTexts_eq, if_pos]
    have hall : trim (inner ++ [] ++ []) = [] := trim_of_bare (isBlank_of_blank h) nofun ⟨stops_nil, stops_nil⟩
    rwa [List.append_nil, List.append_nil] at hall
  | @last p t h =>
    intro ht
    obtain ⟨htrim, hcomma⟩ := trim_padded h (ht t List.mem_cons_self)
    have hne := (ht t List.mem_cons_self).ne_nil
    rw [argTexts_eq, htrim, if_neg hne, pieces_last hcomma, List.map_singleton, htrim]
  | @more p t inner ts h hmore hne ih =>
    intro ht
    obtain ⟨htrim, hcomma⟩ := trim_padded h (ht t List.mem_cons_self)
    have hrest := ih fun x hx => ht x (List.mem_cons_of_mem _ hx)
    rw [argTexts_eq] at hrest
    split at hrest
    · exact absurd hrest.symm hne
    · rw [argTexts_eq, if_neg, pieces_more hcomma, List.map_cons, htrim, hrest]
      intro hnil
      exact absurd (all_blank_of_trim hnil ',' (by simp)) (by decide)

/-! ## Arguments are tokens -/

/-- Words have no blanks at their ends. -/
theorem bare_of_words {t : Text} (h : ∀ c ∈ t, isWord c = true) : Bare t := by
  refine ⟨fun c hc => ?_, fun c hc => ?_⟩
  · exact Bool.eq_false_iff.2 fun hb => absurd ((isWord_of_isBlank hb).symm.trans (h c (List.mem_of_head? hc))) nofun
  · have hmem := h c (List.mem_reverse.1 (List.mem_of_head? hc))
    exact Bool.eq_false_iff.2 fun hb => absurd ((isWord_of_isBlank hb).symm.trans hmem) nofun

/-- Words have no comma. -/
theorem comma_of_words {t : Text} (h : ∀ c ∈ t, isWord c = true) : ',' ∉ t := fun hm => absurd (h _ hm) (by decide)

/-- A word is a token. -/
theorem token_of_words {t : Text} (hne : t ≠ []) (h : ∀ c ∈ t, isWord c = true) : Token t := ⟨hne, comma_of_words h, bare_of_words h⟩

theorem token_of_name {t : Text} (h : Name t) : Token t := token_of_words (name_ne_nil h) (isWord_of_name h)

/-- So is a number with its unit. -/
theorem words_of_number {units : List (Text × BitVec 64)} (ha : ∀ x ∈ units, ∀ c ∈ x.1, isAlpha c = true) {t : Text} {n : Nat}
    (h : Number (units.map fun x => (x.1, x.2.toNat)) t n) : t ≠ [] ∧ ∀ c ∈ t, isWord c = true := by
  obtain ⟨ds, u, k, rfl, hds, -, hk, -⟩ := h
  obtain ⟨x, hx, hxk⟩ := List.mem_map.1 hk
  cases hxk
  refine ⟨fun hnil => hds.1 (List.append_eq_nil_iff.1 hnil).1, List.forall_mem_append.2 ⟨?_, ?_⟩⟩
  · exact fun c hc => isWord_of_isDigit (hds.2 c hc)
  · exact fun c hc => isWord_of_isAlpha (ha x hx c hc)

/-- A name and an offset: it starts and ends with a word. -/
theorem token_of_sum {n w w' num : Text} (hn : Name n) (hw : Blank w) (hw' : Blank w') (hne : num ≠ []) (hnum : ∀ c ∈ num, isWord c = true) :
    Token (n ++ w ++ '+' :: (w' ++ num)) := by
  refine ⟨fun hnil => ?_, fun hm => ?_, ?_, ?_⟩
  · exact nomatch (List.append_eq_nil_iff.1 hnil).2
  · rcases List.mem_append.1 hm with hm | hm
    · exact (List.mem_append.1 hm).elim (comma_of_words (isWord_of_name hn)) (comma_of_blank (isBlank_of_blank hw))
    · rcases List.mem_cons.1 hm with hm | hm
      · exact absurd hm (by decide)
      · exact (List.mem_append.1 hm).elim (comma_of_blank (isBlank_of_blank hw')) (comma_of_words hnum)
  · obtain ⟨c, cs, rfl, hc, hcs⟩ := hn
    exact stops_cons ((bare_of_words (t := [c]) fun x hx => List.mem_singleton.1 hx ▸ isWord_of_isHead hc).1 c rfl)
  · intro c hc
    refine (bare_of_words hnum).2 c ?_
    have hrev : num.reverse ≠ [] := fun h => hne (List.reverse_eq_nil_iff.1 h)
    obtain ⟨x, xs, hx⟩ := List.exists_cons_of_ne_nil hrev
    rw [List.reverse_append, List.reverse_cons, List.reverse_append, hx] at hc
    rw [hx]
    exact hc

/-- Every argument is a token. -/
theorem token_of_argument {P : Parser} {c : Call} {t : Text} {sh : Shape} {o : Operand} {l : Loc} (h : Grammar.Argument P c t sh o l) :
    Token t := by
  cases sh with
  | size =>
    rcases h with ⟨n, hn, -⟩ | ⟨i, hv, -⟩
    · obtain ⟨hne, hwords⟩ := words_of_number sizes_alpha hn
      exact token_of_words hne hwords
    · exact token_of_name hv.1
  | time =>
    obtain ⟨n, hn, -⟩ := h
    obtain ⟨hne, hwords⟩ := words_of_number times_alpha hn
    exact token_of_words hne hwords
  | loc =>
    rcases h.2 with ⟨rfl, -⟩ | ⟨rfl, -⟩
    · exact token_of_name name_device
    · exact token_of_name name_host
  | chunk =>
    obtain ⟨i, hv, -⟩ := h
    exact token_of_name hv.1
  | addr =>
    obtain ⟨n, i, hv, h⟩ := h
    rcases h with ⟨rfl, -⟩ | ⟨-, w, w', num, k, rfl, hw, hw', hnum, -⟩
    · exact token_of_name hv.1
    · obtain ⟨hne, hwords⟩ := words_of_number sizes_alpha hnum
      exact token_of_sum hv.1 hw hw' hne hwords

/-! ## Sentences -/

/-- A call is found by its name. -/
theorem find_iff {t : Text} {c : Call} : Call.find t = some c ↔ c.name = t := by
  constructor
  · intro h
    have hname : (c.name == t) = true := @List.find?_some _ (fun c : Call => c.name == t) c Call.all h
    exact eq_of_beq hname
  · intro h
    subst h
    cases c
    all_goals rfl

/-- Reserved are the locations and the names of the calls. -/
theorem reserved_iff {t : Text} : ¬Reserved t ↔ t ≠ "device".toList ∧ t ≠ "host".toList ∧ ∀ c : Call, c.name ≠ t := by
  unfold Reserved
  rw [not_or, not_or, Option.not_isSome_iff_eq_none, Option.eq_none_iff_forall_ne_some]
  exact and_congr_right fun _ => and_congr_right fun _ => forall_congr' fun c => not_congr find_iff

/-- A destination is assigned as the grammar says. -/
theorem destination_iff {P : Parser} {dst : Text} {st0 st : Stmt} (h0 : st0.dst = none) :
    Assigned P dst st0 st ↔ Destination P dst st ∧ st0 = { st with dst := none } := by
  constructor
  · intro h
    rcases h with ⟨rfl, rfl⟩ | ⟨hne, hr, hres, i, hi, rfl⟩
    · exact ⟨.inl ⟨rfl, h0⟩, by rw [← h0]⟩
    · obtain ⟨h1, h2, h3⟩ := reserved_iff.1 hres
      exact ⟨.inr ⟨hne, hr, h1, h2, h3, i, hi, rfl⟩, by rw [← h0]⟩
  · intro h
    obtain ⟨h, rfl⟩ := h
    rcases h with ⟨rfl, hd⟩ | ⟨hne, hr, h1, h2, h3, i, hi, hd⟩
    · exact .inl ⟨rfl, by rw [← hd]⟩
    · exact .inr ⟨hne, hr, reserved_iff.2 ⟨h1, h2, h3⟩, i, hi, by rw [← hd]⟩

/-- The operands and the location of a statement are those of these arguments. -/
def Filled (P : Parser) (c : Call) (ts : List Text) (st : Stmt) : Prop :=
  (∀ i sh a, c.args[i]? = some sh → ts[i]? = some a → Grammar.Argument P c a sh (Grammar.operand st i) st.loc) ∧
    (∀ i : Nat, c.args[i]? = none → i < 2 → Grammar.operand st i = {}) ∧ (.loc ∉ c.args → st.loc = .device)

/-- Only a location writes one. -/
theorem argument_loc_eq {P : Parser} {c : Call} {t : Text} {sh : Shape} {o : Operand} {l l' : Loc} (hne : sh ≠ .loc) :
    Grammar.Argument P c t sh o l ↔ Grammar.Argument P c t sh o l' := by
  cases sh with
  | loc => exact absurd rfl hne
  | size => exact Iff.rfl
  | time => exact Iff.rfl
  | chunk => exact Iff.rfl
  | addr => exact Iff.rfl

/-- What the arguments fill. -/
theorem converted_iff {P : Parser} {c : Call} {ts : List Text} {no : Nat} {t : Text} {st : Stmt} (hp : ∀ a ∈ ts, Printable a)
    (hlen : ts.length = c.args.length) : Converted P c c.args ts 0 { line := no, text := t, call := c } st ↔
      st.line = no ∧ st.text = t ∧ st.call = c ∧ st.dst = none ∧ Filled P c ts st := by
  rcases args_cases c with hargs | ⟨sh, hargs⟩ | ⟨sh, sh', hargs, hsh⟩
  · rw [hargs] at hlen ⊢
    unfold Filled
    rw [hargs]
    constructor
    · intro h
      rw [show st = _ from h]
      refine ⟨rfl, rfl, rfl, rfl, fun i sh a h => ?_, fun i _ hi => ?_, fun _ => rfl⟩
      · cases h
      · cases i with
        | zero => rfl
        | succ i => rfl
    · intro h
      obtain ⟨line, text, call, dst, a, b, loc⟩ := st
      obtain ⟨rfl, rfl, rfl, rfl, -, ho, hl⟩ := h
      cases ho 0 rfl (by decide)
      cases ho 1 rfl (by decide)
      cases hl nofun
      rfl
  · rw [hargs] at hlen ⊢
    obtain ⟨a, rfl⟩ := List.length_eq_one_iff.1 hlen
    have ha := hp a List.mem_cons_self
    rw [converted_one hlen]
    unfold Filled
    rw [hargs]
    constructor
    · intro h
      obtain ⟨a', r, x, heq, hr, hx, rfl⟩ := h
      cases heq
      obtain ⟨harg, hl⟩ := (argument_iff ha sh).1 ⟨r, hr, hx⟩
      refine ⟨rfl, rfl, rfl, rfl, fun i sh' a' hi hi' => ?_, fun i hi hlt => ?_, fun hloc => hl fun h => hloc ?_⟩
      · cases i with
        | zero =>
          cases hi
          cases hi'
          exact harg
        | succ i => cases hi
      · cases i with
        | zero => cases hi
        | succ i => rfl
      · rw [h]
        exact List.mem_cons_self
    · intro h
      obtain ⟨line, text, call, dst, oa, ob, loc⟩ := st
      obtain ⟨rfl, rfl, rfl, rfl, harg, ho, hl⟩ := h
      cases ho 1 rfl (by decide)
      have hl : sh ≠ .loc → loc = .device := fun hne => hl fun h => hne (List.mem_singleton.1 h).symm
      obtain ⟨r, hr, hx⟩ : ∃ r, readArg ⟨call, 1⟩ a = .ok r ∧ Fits P (call == .map) sh r {} .device (oa, loc) :=
        (argument_iff ha sh).2 ⟨harg 0 sh a rfl rfl, hl⟩
      exact ⟨a, r, (oa, loc), rfl, hr, hx, rfl⟩
  · rw [hargs] at hlen ⊢
    obtain ⟨a, a', rfl⟩ := List.length_eq_two.1 hlen
    have ha := hp a List.mem_cons_self
    have ha' := hp a' (List.mem_cons_of_mem _ List.mem_cons_self)
    rw [converted_two hlen]
    unfold Filled
    rw [hargs]
    constructor
    · intro h
      obtain ⟨b, b', r, r', x, x', heq, hr, hr', hx, hx', rfl⟩ := h
      cases heq
      obtain ⟨harg, hl⟩ := (argument_iff ha sh).1 ⟨r, hr, hx⟩
      obtain ⟨harg', hl'⟩ := (argument_iff ha' sh').1 ⟨r', hr', hx'⟩
      refine ⟨rfl, rfl, rfl, rfl, fun i sh'' b hi hi' => ?_, fun i hi hlt => ?_, fun hloc => ?_⟩
      · match i with
        | 0 =>
          cases hi
          cases hi'
          exact (argument_loc_eq hsh).1 harg
        | 1 =>
          cases hi
          cases hi'
          exact harg'
        | i + 2 => cases hi
      · match i with
        | 0 => cases hi
        | 1 => cases hi
      · refine (hl' fun h => hloc ?_).trans (hl hsh)
        rw [h]
        exact List.mem_cons_of_mem _ List.mem_cons_self
    · intro h
      obtain ⟨line, text, call, dst, oa, ob, loc⟩ := st
      obtain ⟨rfl, rfl, rfl, rfl, harg, -, hl⟩ := h
      have hl : sh' ≠ .loc → loc = .device := fun hne => hl fun h => by
        rcases List.mem_cons.1 h with h | h
        · exact hsh h.symm
        · exact hne (List.mem_singleton.1 h).symm
      have harg0 : Grammar.Argument P call a sh oa .device := (argument_loc_eq hsh).1 (harg 0 sh a rfl rfl)
      obtain ⟨r, hr, hx⟩ : ∃ r, readArg ⟨call, 1⟩ a = .ok r ∧ Fits P (call == .map) sh r {} .device (oa, .device) :=
        (argument_iff ha sh).2 ⟨harg0, fun _ => rfl⟩
      obtain ⟨r', hr', hx'⟩ : ∃ r, readArg ⟨call, 2⟩ a' = .ok r ∧ Fits P (call == .map) sh' r {} .device (ob, loc) :=
        (argument_iff ha' sh').2 ⟨harg 1 sh' a' rfl rfl, hl⟩
      exact ⟨a, a', r, r', (oa, .device), (ob, loc), rfl, hr, hr', hx, hx', rfl⟩

/-- What is between the parentheses of a printable call is printable. -/
theorem printable_inner {t d n inner : Text} (hp : Printable t) (h : Form t d n inner) : Printable inner := by
  obtain ⟨head, w, rfl, -⟩ := h
  exact fun c hc => hp c (by simp [hc])

/-- What is parsed is exactly a sentence of the grammar. -/
theorem sentence_iff {P : Parser} {no : Nat} {t dst : Text} {st : Stmt} (hp : Printable t) : Parsed P no t dst st ↔ Sentence P no t dst st := by
  constructor
  · intro h
    obtain ⟨m, hm, rfl, c, hc, hlen, st0, hconv, hassigned⟩ := h
    have hform := (form_iff hp).2 ⟨m, hm, rfl, (find_iff.1 hc), rfl⟩
    have hinner := printable_inner hp hform
    have hargs := arguments_argTexts hinner
    obtain ⟨hline, htext, hcall, hdst, hfill, hunused, hloc⟩ := (converted_iff (printable_arguments hargs hinner) hlen).1 hconv
    obtain ⟨hdest, rfl⟩ := (destination_iff hdst).1 hassigned
    have hcall : st.call = c := hcall
    subst hcall
    exact ⟨hline, htext, ⟨_, _, hform, hargs, hlen, hfill⟩, hunused, hloc, hdest⟩
  · intro h
    obtain ⟨hline, htext, ⟨inner, ts, hform, hargs, hlen, hfill⟩, hunused, hloc, hdest⟩ := h
    obtain ⟨m, hm, rfl, hname, rfl⟩ := (form_iff hp).1 hform
    have hinner := printable_inner hp hform
    have htokens : ∀ a ∈ ts, Token a := by
      intro a ha
      obtain ⟨i, hi⟩ := List.mem_iff_getElem?.1 ha
      obtain ⟨hlt, -⟩ := List.getElem?_eq_some_iff.1 hi
      exact token_of_argument (hfill i _ a (List.getElem?_eq_getElem (hlen ▸ hlt)) hi)
    have hts := argTexts_of_arguments hargs htokens
    subst hts
    refine ⟨m, hm, rfl, st.call, find_iff.2 hname, hlen, { st with dst := none }, ?_, (destination_iff rfl).2 ⟨hdest, rfl⟩⟩
    exact (converted_iff (printable_arguments hargs hinner) hlen).2 ⟨hline, htext, rfl, rfl, hfill, hunused, hloc⟩

/-! ## The content of a line -/

/-- A printable line has the content that is cut out of it. -/
theorem content_spec {raw : Text} (hp : Printable raw) : Content raw (content raw) := by
  have hsplit : raw.takeWhile (· ≠ '#') ++ raw.dropWhile (· ≠ '#') = raw := List.takeWhile_append_dropWhile
  have hno : '#' ∉ raw.takeWhile (· ≠ '#') := fun h => absurd (mem_takeWhile _ h) (by decide)
  obtain ⟨w, w', ht, hw, hw', hbare⟩ := trim_spec (raw.takeWhile (· ≠ '#'))
  have hprint := hp
  rw [← hsplit, printable_append, ht, printable_append, printable_append] at hprint
  refine ⟨w, w', raw.dropWhile (· ≠ '#'), ?_, (blank_iff hprint.1.1.1).1 hw, (blank_iff hprint.1.2).1 hw', fun h => ?_, fun c hc => ?_, ?_⟩
  · unfold content
    rw [← ht, hsplit]
  · refine hno ?_
    rw [ht]
    exact List.mem_append_left _ (List.mem_append_right _ h)
  · have hb : isBlank c = false := by
      rcases hc with hc | hc
      · exact hbare.1 c hc
      · refine hbare.2 c ?_
        rw [List.head?_reverse]
        exact hc
    refine ⟨fun heq => ?_, fun heq => ?_⟩
    all_goals
      rw [heq] at hb
      exact absurd hb (by decide)
  · have hstop := stops_dropWhile (· ≠ '#') raw
    cases hd : raw.dropWhile (· ≠ '#') with
    | nil => exact .inl rfl
    | cons c cs =>
      rw [hd] at hstop
      have hc := hstop c rfl
      have hc : c = '#' := by simpa using hc
      exact .inr ⟨cs, by rw [hc]⟩

/-- It has no other. -/
theorem content_unique {raw t : Text} (hp : Printable raw) (h : Content raw t) : t = content raw := by
  obtain ⟨w, w', comment, rfl, hw, hw', hhash, hbare, hcomment⟩ := h
  have hno : ∀ c ∈ w ++ t ++ w', (decide (c ≠ '#')) = true := by
    intro c hc
    rw [decide_eq_true_iff]
    intro heq
    rw [heq] at hc
    rcases List.mem_append.1 hc with hc | hc
    · rcases List.mem_append.1 hc with hc | hc
      · exact absurd (isBlank_of_blank hw _ hc) (by decide)
      · exact hhash hc
    · exact absurd (isBlank_of_blank hw' _ hc) (by decide)
  have hstop : Stops (· ≠ '#') comment := by
    rcases hcomment with rfl | ⟨r, rfl⟩
    · exact stops_nil
    · exact stops_cons (by decide)
  have hprint : Printable t := (printable_append.1 (printable_append.1 (printable_append.1 hp).1).1).2
  have hb : Bare t := by
    have hne (c : Char) (hc : t.head? = some c ∨ t.getLast? = some c) : isBlank c = false := by
      refine Bool.eq_false_iff.2 fun hblank => ?_
      have hmem : c ∈ t := hc.elim List.mem_of_head? List.mem_of_getLast?
      rcases isBlank_iff.1 hblank with heq | heq | heq
      · exact (hbare c hc).1 heq
      · exact (hbare c hc).2 heq
      · rw [heq] at hmem
        exact absurd (hprint _ hmem) (by decide)
    refine ⟨fun c hc => hne c (.inl hc), fun c hc => hne c (.inr ?_)⟩
    rw [← List.head?_reverse]
    exact hc
  unfold content
  rw [takeWhile_span hno hstop, trim_of_bare (isBlank_of_blank hw) (isBlank_of_blank hw') hb]

end GrammarAux

end Vmem
