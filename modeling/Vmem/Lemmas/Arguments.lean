import Vmem.Lemmas.Grammar

/-!
# Arguments of a script

What `readArg` accepts is a name, a number with a unit, or a name and an offset (`ArgForm`); what the letter of a call then accepts is an
argument of the grammar (`argument_iff`). The texts between the commas are the arguments, without the blanks around them.
-/

namespace Vmem

namespace GrammarAux

open Grammar Regex ScriptAux

/-! ## Reading an argument -/

/-- The parts of an argument: a name or nothing, a plus sign or nothing, a number with letters or nothing. -/
def NamePart (t : Text) (c : Captures) : Prop := (t = [] ∧ c = []) ∨ (Name t ∧ c = [(1, t)])

def PlusPart (t : Text) (c : Captures) : Prop :=
  (t = [] ∧ c = []) ∨ (c = [(2, t)] ∧ ∃ w w', t = w ++ '+' :: w' ∧ (∀ x ∈ w, isSpace x = true) ∧ ∀ x ∈ w', isSpace x = true)

def NumberPart (t : Text) (c : Captures) : Prop :=
  (t = [] ∧ c = []) ∨ ∃ ds u, t = ds ++ u ∧ Digits ds ∧ (∀ x ∈ u, isAlpha x = true) ∧ c = [(3, ds), (4, u)]

/-- A digit and more digits match digits. -/
theorem matches_digits {t : Text} {c : Captures} : Matches (seq (one isDigit) (many isDigit)) t c ↔ Digits t ∧ c = [] := by
  rw [matches_seq]
  constructor
  · intro h
    obtain ⟨s1, s2, c1, c2, rfl, rfl, h1, h2⟩ := h
    obtain ⟨x, rfl, rfl, hx⟩ := matches_one.1 h1
    obtain ⟨rfl, hall⟩ := matches_many.1 h2
    refine ⟨⟨nofun, fun y hy => ?_⟩, rfl⟩
    rcases List.mem_cons.1 hy with rfl | hy
    · exact hx
    · exact hall y hy
  · intro h
    obtain ⟨⟨hne, hall⟩, rfl⟩ := h
    cases t with
    | nil => exact absurd rfl hne
    | cons x xs =>
      exact ⟨[x], xs, [], [], rfl, rfl, matches_one.2 ⟨x, rfl, rfl, hall x List.mem_cons_self⟩,
        matches_many.2 ⟨rfl, fun y hy => hall y (List.mem_cons_of_mem _ hy)⟩⟩

/-- The end of an argument matches a number with its unit, or nothing. -/
theorem matches_number {t : Text} {c : Captures} :
    Matches (opt (seq (group 3 (seq (one isDigit) (many isDigit))) (group 4 (many isAlpha)))) t c ↔ NumberPart t c := by
  rw [matches_opt, matches_seq]
  refine or_congr_right ⟨fun h => ?_, fun h => ?_⟩
  · obtain ⟨ds, u, c1, c2, rfl, rfl, h1, h2⟩ := h
    obtain ⟨c3, rfl, h3⟩ := matches_group.1 h1
    obtain ⟨hds, rfl⟩ := matches_digits.1 h3
    obtain ⟨c4, rfl, h4⟩ := matches_group.1 h2
    obtain ⟨rfl, hu⟩ := matches_many.1 h4
    exact ⟨ds, u, rfl, hds, hu, rfl⟩
  · obtain ⟨ds, u, rfl, hds, hu, rfl⟩ := h
    exact ⟨ds, u, [(3, ds)], [(4, u)], rfl, rfl, matches_group.2 ⟨[], rfl, matches_digits.2 ⟨hds, rfl⟩⟩,
      matches_group.2 ⟨[], rfl, matches_many.2 ⟨rfl, hu⟩⟩⟩

/-- Its middle matches a plus with white space around, or nothing. -/
theorem matches_plus {t : Text} {c : Captures} :
    Matches (opt (group 2 (seq (many isSpace) (seq (one (· == '+')) (many isSpace))))) t c ↔ PlusPart t c := by
  rw [matches_opt, matches_group]
  refine or_congr_right ⟨fun h => ?_, fun h => ?_⟩
  · obtain ⟨c', rfl, h⟩ := h
    obtain ⟨rfl, hsign⟩ := matches_sign.1 h
    exact ⟨rfl, hsign⟩
  · obtain ⟨rfl, hsign⟩ := h
    exact ⟨[], rfl, matches_sign.2 ⟨rfl, hsign⟩⟩

/-- An argument matches part by part. -/
theorem matches_arg {t : Text} {c : Captures} : Matches argRe t c ↔ ∃ n p x c1 c2 c3, t = n ++ (p ++ x) ∧ c = c1 ++ (c2 ++ c3) ∧
    NamePart n c1 ∧ PlusPart p c2 ∧ NumberPart x c3 := by
  unfold argRe
  rw [matches_seq]
  constructor
  · intro h
    obtain ⟨n, s2, c1, c', rfl, rfl, h1, h2⟩ := h
    obtain ⟨p, x, c2, c3, rfl, rfl, h3, h4⟩ := matches_seq.1 h2
    refine ⟨n, p, x, c1, c2, c3, rfl, rfl, ?_, matches_plus.1 h3, matches_number.1 h4⟩
    exact (matches_opt.1 h1).imp_right matches_group_name.1
  · intro h
    obtain ⟨n, p, x, c1, c2, c3, rfl, rfl, h1, h2, h3⟩ := h
    exact ⟨n, p ++ x, c1, c2 ++ c3, rfl, rfl, matches_opt.2 (h1.imp_right matches_group_name.2),
      matches_seq.2 ⟨p, x, c2, c3, rfl, rfl, matches_plus.2 h2, matches_number.2 h3⟩⟩

/-- A name is read as a name also where it ends in digits: the longest name is tried first. -/
theorem fullMatch_name {t : Text} (h : Name t) : argRe.fullMatch t = some [(1, t)] := by
  obtain ⟨c, cs, rfl, hc, hcs⟩ := h
  obtain ⟨l, hl⟩ := cuts_all hcs
  have hfirst : ∃ hs, run (opt (group 1 nameRe)) (c :: cs) = ⟨c :: cs, [(1, c :: cs)], []⟩ :: hs := by
    unfold run nameRe
    rw [show run (group 1 (seq (one isHead) (many isWord))) (c :: cs) = ((run (one isHead) (c :: cs)).flatMap fun h =>
      (run (many isWord) h.rest).map fun h' => (⟨h.text ++ h'.text, h.caps ++ h'.caps, h'.rest⟩ : Hit)).map
      fun h => { h with caps := (1, h.text) :: h.caps } from rfl]
    rw [show run (one isHead) (c :: cs) = [⟨[c], [], cs⟩] from if_pos hc, List.flatMap_singleton]
    rw [show run (many isWord) cs = (cuts isWord cs).map fun x => ⟨x.1, [], x.2⟩ from rfl, hl]
    exact ⟨_, rfl⟩
  obtain ⟨hs, hrun⟩ := hfirst
  exact fullMatch_seq_of_first hrun rfl

/-- An argument, and what is read of it. -/
def ArgForm (t : Text) (r : Arg) : Prop :=
  (Name t ∧ r = ⟨t, [], false, false, 0⟩) ∨
  (∃ ds u, t = ds ++ u ∧ Digits ds ∧ (∀ x ∈ u, isAlpha x = true) ∧ ds.length ≤ 15 ∧
    r = ⟨[], u, false, true, BitVec.ofNat 64 (digitsValue ds)⟩) ∨
  (∃ n w w' ds u, t = n ++ (w ++ '+' :: (w' ++ (ds ++ u))) ∧ Name n ∧ (∀ x ∈ w, isSpace x = true) ∧ (∀ x ∈ w', isSpace x = true) ∧
    Digits ds ∧ (∀ x ∈ u, isAlpha x = true) ∧ ds.length ≤ 15 ∧ r = ⟨n, u, true, true, BitVec.ofNat 64 (digitsValue ds)⟩)

/-- A name that a number follows at once is a name. -/
theorem name_append_number {n ds u : Text} (hn : Name n) (hds : Digits ds) (hu : ∀ x ∈ u, isAlpha x = true) : Name (n ++ (ds ++ u)) := by
  obtain ⟨c, cs, rfl, hc, hcs⟩ := hn
  refine ⟨c, cs ++ (ds ++ u), rfl, hc, fun x hx => ?_⟩
  rcases List.mem_append.1 hx with hx | hx
  · exact hcs x hx
  · rcases List.mem_append.1 hx with hx | hx
    · exact isWord_of_isDigit (hds.2 x hx)
    · exact isWord_of_isAlpha (hu x hx)

/-- What is read of an argument is what the expression captured. -/
theorem readArg_match (wh : Vmem.Argument) {t : Text} (hne : t ≠ []) {m : Captures} (h : argRe.fullMatch t = some m) : readArg wh t =
    if m.matched 2 && !(m.matched 1 && m.matched 3) then throw (.cannotRead wh t)
    else if m.matched 3 then
      if (m.text 3).length > 15 then throw .numberTooLarge
      else pure ⟨m.text 1, m.text 4, m.matched 2, true, BitVec.ofNat 64 (digitsValue (m.text 3))⟩
    else pure ⟨m.text 1, m.text 4, m.matched 2, false, 0⟩ := by
  have hb : t.isEmpty = false := by
    cases t with
    | nil => exact absurd rfl hne
    | cons c cs => rfl
  unfold readArg
  rw [hb, if_neg Bool.false_ne_true, h]

/-- What is read of an argument has one of the forms. -/
theorem argForm_of_readArg {wh : Vmem.Argument} {t : Text} {r : Arg} (h : readArg wh t = .ok r) : ArgForm t r := by
  by_cases hne : t = []
  · rw [hne] at h
    exact nomatch (show Except.error _ = Except.ok r from h)
  · cases hm : argRe.fullMatch t with
    | none =>
      unfold readArg at h
      rw [hm, ite_self] at h
      exact nomatch (show Except.error _ = Except.ok r from h)
    | some m =>
      rw [readArg_match wh hne hm] at h
      obtain ⟨n, p, x, c1, c2, c3, ht, rfl, h1, h2, h3⟩ := matches_arg.1 (matches_of_fullMatch hm)
      rcases h1 with ⟨rfl, rfl⟩ | ⟨hn, rfl⟩
      · rcases h2 with ⟨rfl, rfl⟩ | ⟨rfl, hsign⟩
        · rcases h3 with ⟨rfl, rfl⟩ | ⟨ds, u, rfl, hds, hu, rfl⟩
          · exact absurd ht hne
          · have h : (if ds.length > 15 then throw .numberTooLarge else
              pure ⟨[], u, false, true, BitVec.ofNat 64 (digitsValue ds)⟩ : Except ScriptError Arg) = .ok r := h
            split at h
            · cases h
            · cases h
              exact .inr (.inl ⟨ds, u, ht, hds, hu, by omega, rfl⟩)
        · rcases h3 with ⟨rfl, rfl⟩ | ⟨ds, u, rfl, hds, hu, rfl⟩
          all_goals exact nomatch (show Except.error _ = Except.ok r from h)
      · rcases h2 with ⟨rfl, rfl⟩ | ⟨rfl, w, w', rfl, hw, hw'⟩
        · rcases h3 with ⟨rfl, rfl⟩ | ⟨ds, u, rfl, hds, hu, rfl⟩
          · rw [List.append_nil, List.append_nil] at ht
            cases h
            exact .inl ⟨ht ▸ hn, by rw [ht]; rfl⟩
          · rw [ht, List.nil_append, fullMatch_name (name_append_number hn hds hu)] at hm
            exact nomatch (List.cons.inj (Option.some.inj hm)).2
        · rcases h3 with ⟨rfl, rfl⟩ | ⟨ds, u, rfl, hds, hu, rfl⟩
          · exact nomatch (show Except.error _ = Except.ok r from h)
          · have h : (if ds.length > 15 then throw .numberTooLarge else
              pure ⟨n, u, true, true, BitVec.ofNat 64 (digitsValue ds)⟩ : Except ScriptError Arg) = .ok r := h
            split at h
            · cases h
            · cases h
              refine .inr (.inr ⟨n, w, w', ds, u, ?_, hn, hw, hw', hds, hu, by omega, rfl⟩)
              rw [ht]
              simp only [List.append_assoc, List.cons_append]

/-- What a digit is not, stops before digits. -/
theorem stops_digits {p : Char → Bool} (hpd : ∀ c, isDigit c = true → p c = false) {ds r : Text} (h : Digits ds) : Stops p (ds ++ r) := by
  obtain ⟨hne, hall⟩ := h
  cases ds with
  | nil => exact absurd rfl hne
  | cons c cs => exact stops_cons (hpd c (hall c List.mem_cons_self))

/-- Digits and the letters behind them are cut in one way. -/
theorem number_unique {ds u ds' u' : Text} (h : ds ++ u = ds' ++ u') (hds : Digits ds) (hu : ∀ x ∈ u, isAlpha x = true) (hds' : Digits ds')
    (hu' : ∀ x ∈ u', isAlpha x = true) : ds = ds' ∧ u = u' := by
  have hstop (v : Text) (hv : ∀ x ∈ v, isAlpha x = true) : Stops isDigit v := by
    intro c hc
    have halpha := hv c (List.mem_of_head? hc)
    exact Bool.eq_false_iff.2 fun hd => absurd ((isAlpha_of_isDigit hd).symm.trans halpha) nofun
  exact span_unique h hds.2 (hstop u hu) hds'.2 (hstop u' hu')

/-- The parts of a text that starts with a digit. -/
theorem parts_of_number {n p x ds u : Text} {c1 c2 c3 : Captures} (h : n ++ (p ++ x) = ds ++ u) (hds : Digits ds)
    (hu : ∀ y ∈ u, isAlpha y = true) (h1 : NamePart n c1) (h2 : PlusPart p c2) (h3 : NumberPart x c3) :
    c1 = [] ∧ c2 = [] ∧ c3 = [(3, ds), (4, u)] := by
  have hhead (c : Char) (hc : (ds ++ u).head? = some c) : isDigit c = true := by
    cases ds with
    | nil => exact absurd rfl hds.1
    | cons d ds =>
      cases hc
      exact hds.2 _ List.mem_cons_self
  rcases h1 with ⟨rfl, rfl⟩ | ⟨⟨c, cs, rfl, hc, -⟩, -⟩
  · rcases h2 with ⟨rfl, rfl⟩ | ⟨-, w, w', rfl, hw, -⟩
    · rcases h3 with ⟨rfl, rfl⟩ | ⟨ds', u', rfl, hds', hu', rfl⟩
      · exact absurd (List.append_eq_nil_iff.1 h.symm).1 hds.1
      · have h : ds' ++ u' = ds ++ u := h
        obtain ⟨rfl, rfl⟩ := number_unique h hds' hu' hds hu
        exact ⟨rfl, rfl, rfl⟩
    · exfalso
      rw [← h] at hhead
      cases w with
      | nil => exact absurd (hhead '+' rfl) (by decide)
      | cons c cs => exact absurd ((isSpace_of_isDigit (hhead c rfl)).symm.trans (hw c List.mem_cons_self)) nofun
  · rw [← h] at hhead
    exact absurd ((isHead_of_isDigit (hhead c rfl)).symm.trans hc) nofun

/-- The parts of a name and an offset. -/
theorem parts_of_sum {n p x n' w w' ds u : Text} {c1 c2 c3 : Captures} (h : n ++ (p ++ x) = n' ++ (w ++ '+' :: (w' ++ (ds ++ u))))
    (hn' : Name n') (hw : ∀ y ∈ w, isSpace y = true) (hw' : ∀ y ∈ w', isSpace y = true) (hds : Digits ds)
    (hu : ∀ y ∈ u, isAlpha y = true) (h1 : NamePart n c1) (h2 : PlusPart p c2) (h3 : NumberPart x c3) :
    c1 = [(1, n')] ∧ c2 = [(2, p)] ∧ c3 = [(3, ds), (4, u)] := by
  have hplus : isWord '+' = false ∧ isSpace '+' = false := by decide
  have hword (y : Char) (hy : y ∈ x) : isWord y = true := by
    rcases h3 with ⟨rfl, -⟩ | ⟨ds', u', rfl, hds', hu', -⟩
    · cases hy
    · rcases List.mem_append.1 hy with hy | hy
      · exact isWord_of_isDigit (hds'.2 y hy)
      · exact isWord_of_isAlpha (hu' y hy)
  have hmem : '+' ∈ n ++ (p ++ x) := by
    rw [h]
    simp
  have hnames : ∀ y ∈ n, isWord y = true := by
    rcases h1 with ⟨rfl, -⟩ | ⟨hn, -⟩
    · exact nofun
    · exact isWord_of_name hn
  rcases h2 with ⟨rfl, rfl⟩ | ⟨rfl, v, v', rfl, hv, hv'⟩
  · rcases List.mem_append.1 hmem with hy | hy
    · exact absurd ((hnames _ hy).symm.trans hplus.1) nofun
    · exact absurd ((hword _ hy).symm.trans hplus.1) nofun
  · rw [List.append_assoc] at h
    obtain ⟨rfl, -, hrest⟩ := sign_unique h hnames hv hplus (isWord_of_name hn') hw hplus
    have hstop : Stops isSpace x := by
      rcases h3 with ⟨rfl, -⟩ | ⟨ds', u', rfl, hds', -, -⟩
      · exact stops_nil
      · exact stops_digits (fun _ => isSpace_of_isDigit) hds'
    obtain ⟨-, hx⟩ := span_unique hrest hv' hstop hw' (stops_digits (fun _ => isSpace_of_isDigit) hds)
    refine ⟨?_, rfl, ?_⟩
    · rcases h1 with ⟨rfl, -⟩ | ⟨-, rfl⟩
      · exact absurd rfl (name_ne_nil hn')
      · rfl
    · rcases h3 with ⟨rfl, -⟩ | ⟨ds', u', rfl, hds', hu', rfl⟩
      · exact absurd (List.append_eq_nil_iff.1 hx.symm).1 hds.1
      · obtain ⟨rfl, rfl⟩ := number_unique hx hds' hu' hds hu
        rfl

/-- What is read of an argument. -/
theorem readArg_iff {wh : Vmem.Argument} {t : Text} {r : Arg} : readArg wh t = .ok r ↔ ArgForm t r := by
  refine ⟨argForm_of_readArg, fun h => ?_⟩
  rcases h with ⟨hn, rfl⟩ | ⟨ds, u, rfl, hds, hu, hlen, rfl⟩ | ⟨n, w, w', ds, u, rfl, hn, hw, hw', hds, hu, hlen, rfl⟩
  · rw [readArg_match wh (name_ne_nil hn) (fullMatch_name hn)]
    rfl
  · have hmatch : Matches argRe (ds ++ u) [(3, ds), (4, u)] :=
      matches_arg.2 ⟨[], [], ds ++ u, [], [], _, rfl, rfl, .inl ⟨rfl, rfl⟩, .inl ⟨rfl, rfl⟩, .inr ⟨ds, u, rfl, hds, hu, rfl⟩⟩
    have hfull := fullMatch_of_unique hmatch fun c' hc' => by
      obtain ⟨n, p, x, c1, c2, c3, ht, rfl, h1, h2, h3⟩ := matches_arg.1 hc'
      obtain ⟨rfl, rfl, rfl⟩ := parts_of_number ht.symm hds hu h1 h2 h3
      rfl
    rw [readArg_match wh (fun hnil => hds.1 (List.append_eq_nil_iff.1 hnil).1) hfull]
    show (if ds.length > 15 then throw .numberTooLarge else _ : Except ScriptError Arg) = _
    rw [if_neg (by omega)]
    rfl
  · have hmatch : Matches argRe (n ++ (w ++ '+' :: (w' ++ (ds ++ u)))) [(1, n), (2, w ++ '+' :: w'), (3, ds), (4, u)] :=
      matches_arg.2 ⟨n, w ++ '+' :: w', ds ++ u, [(1, n)], [(2, w ++ '+' :: w')], _, by simp only [List.append_assoc, List.cons_append], rfl,
        .inr ⟨hn, rfl⟩, .inr ⟨rfl, w, w', rfl, hw, hw'⟩, .inr ⟨ds, u, rfl, hds, hu, rfl⟩⟩
    obtain ⟨m, hm⟩ := exists_fullMatch hmatch
    obtain ⟨n', p, x, c1, c2, c3, ht, rfl, h1, h2, h3⟩ := matches_arg.1 (matches_of_fullMatch hm)
    obtain ⟨rfl, rfl, rfl⟩ := parts_of_sum ht.symm hn hw hw' hds hu h1 h2 h3
    rw [readArg_match wh (fun hnil => name_ne_nil hn (List.append_eq_nil_iff.1 hnil).1) hm]
    show (if ds.length > 15 then throw .numberTooLarge else _ : Except ScriptError Arg) = _
    rw [if_neg (by omega)]
    rfl

/-! ## The letters -/

/-- The value of some digits is below that power of ten. -/
theorem digitsValue_lt (ds : Text) : (∀ c ∈ ds, isDigit c = true) → digitsValue ds < 10 ^ ds.length := by
  induction ds using List.reverseRecOn with
  | nil => exact fun _ => Nat.one_pos
  | append_singleton ds c ih =>
    intro h
    have hlt := ih fun x hx => h x (List.mem_append_left _ hx)
    have hc := h c (List.mem_append_right _ List.mem_cons_self)
    unfold isDigit at hc
    rw [Bool.and_eq_true, decide_eq_true_iff, decide_eq_true_iff, Char.le_def, Char.le_def, UInt32.le_iff_toNat_le,
      UInt32.le_iff_toNat_le] at hc
    have h9 : c.toNat ≤ 57 := hc.2
    have h0 : '0'.toNat = 48 := rfl
    have hstep : digitsValue (ds ++ [c]) = digitsValue ds * 10 + (c.toNat - '0'.toNat) := by
      unfold digitsValue
      rw [List.foldl_append]
      rfl
    rw [hstep, List.length_append, List.length_singleton, pow_succ, h0]
    omega

/-- A number of at most 15 digits fits in a word. -/
theorem number_toNat {ds : Text} (h : Digits ds) (hlen : ds.length ≤ 15) : (BitVec.ofNat 64 (digitsValue ds)).toNat = digitsValue ds := by
  have hlt := digitsValue_lt ds h.2
  have hpow : 10 ^ ds.length ≤ 10 ^ 15 := Nat.pow_le_pow_right (by decide) hlen
  rw [BitVec.toNat_ofNat, Nat.mod_eq_of_lt]
  exact (hlt.trans_le hpow).trans (by decide)

/-- The units in numbers are the units in words. -/
theorem lookup_iff {units : List (Text × BitVec 64)} (h : (units.map Prod.fst).Nodup) {t : Text} {k : Nat} :
    (t, k) ∈ units.map (fun x => (x.1, x.2.toNat)) ↔ ∃ u, units.lookup t = some u ∧ u.toNat = k := by
  induction units with
  | nil => exact ⟨nofun, fun ⟨_, h, _⟩ => nomatch h⟩
  | cons x xs ih =>
    obtain ⟨y, v⟩ := x
    rw [List.map_cons, List.nodup_cons] at h
    rw [List.map_cons, List.mem_cons, ih h.2, List.lookup_cons]
    by_cases hty : t = y
    · subst hty
      rw [beq_self_eq_true]
      constructor
      · intro hk
        rcases hk with hk | ⟨u, hu, hk⟩
        · cases hk
          exact ⟨v, rfl, rfl⟩
        · obtain ⟨l1, l2, rfl, -⟩ := List.lookup_eq_some_iff.1 hu
          exact absurd (by simp) h.1
      · intro hk
        obtain ⟨u, hu, rfl⟩ := hk
        cases hu
        exact .inl rfl
    · rw [beq_eq_false_iff_ne.2 hty]
      exact ⟨fun hk => hk.resolve_left fun heq => hty (congrArg Prod.fst heq), .inr⟩

/-- A number with its unit is what is read, scaled. -/
theorem scaled_iff {units : List (Text × BitVec 64)} (h : (units.map Prod.fst).Nodup) {name ds unit : Text} {plus : Bool} {n : BitVec 64}
    (hds : Digits ds) (hlen : ds.length ≤ 15) : Scaled ⟨name, unit, plus, true, BitVec.ofNat 64 (digitsValue ds)⟩ units n ↔
      ∃ k, (unit, k) ∈ units.map (fun x => (x.1, x.2.toNat)) ∧ digitsValue ds * k < 2 ^ 64 ∧ n = BitVec.ofNat 64 (digitsValue ds * k) := by
  unfold Scaled
  dsimp only
  rw [number_toNat hds hlen]
  constructor
  · intro hs
    obtain ⟨u, hu, hlt, hn⟩ := hs
    refine ⟨u.toNat, (lookup_iff h).2 ⟨u, hu, rfl⟩, hlt, BitVec.eq_of_toNat_eq ?_⟩
    rw [BitVec.toNat_ofNat, Nat.mod_eq_of_lt hlt, hn]
  · intro hs
    obtain ⟨k, hk, hlt, rfl⟩ := hs
    obtain ⟨u, hu, rfl⟩ := (lookup_iff h).1 hk
    refine ⟨u, hu, hlt, ?_⟩
    rw [BitVec.toNat_ofNat, Nat.mod_eq_of_lt hlt]

/-- The units of sizes are those of the grammar. -/
theorem sizeUnits_eq : sizeUnits = sizes.map fun x => (x.1, x.2.toNat) := rfl

theorem timeUnits_eq : timeUnits = times.map fun x => (x.1, x.2.toNat) := rfl

/-- No unit of sizes is there twice. -/
theorem sizes_nodup : (sizes.map Prod.fst).Nodup := by decide

theorem times_nodup : (times.map Prod.fst).Nodup := by decide

/-- The units are letters. -/
theorem sizes_alpha : ∀ x ∈ sizes, ∀ c ∈ x.1, isAlpha c = true := by
  intro x hx
  exact List.all_eq_true.1 (List.all_eq_true.1 (show sizes.all (fun x => x.1.all isAlpha) = true by decide) x hx)

theorem times_alpha : ∀ x ∈ times, ∀ c ∈ x.1, isAlpha c = true := by
  intro x hx
  exact List.all_eq_true.1 (List.all_eq_true.1 (show times.all (fun x => x.1.all isAlpha) = true by decide) x hx)

/-- A number of the grammar, as it is read and scaled. -/
theorem number_iff {units : List (Text × BitVec 64)} (h : (units.map Prod.fst).Nodup) (ha : ∀ x ∈ units, ∀ c ∈ x.1, isAlpha c = true)
    (name : Text) (plus : Bool) (v : Option Nat) {t : Text} {o : Operand} :
    (∃ n, Number (units.map fun x => (x.1, x.2.toNat)) t n ∧ o = ⟨v, BitVec.ofNat 64 n⟩) ↔
      ∃ ds u, t = ds ++ u ∧ Digits ds ∧ (∀ x ∈ u, isAlpha x = true) ∧ ds.length ≤ 15 ∧
        ∃ n, Scaled ⟨name, u, plus, true, BitVec.ofNat 64 (digitsValue ds)⟩ units n ∧ o = ⟨v, n⟩ := by
  constructor
  · intro hn
    obtain ⟨n, ⟨ds, u, k, rfl, hds, hlen, hk, rfl, hlt⟩, rfl⟩ := hn
    obtain ⟨x, hx, hxk⟩ := List.mem_map.1 hk
    cases hxk
    exact ⟨ds, x.1, rfl, hds, ha x hx, hlen, _, (scaled_iff h hds hlen).2 ⟨_, hk, hlt, rfl⟩, rfl⟩
  · intro hn
    obtain ⟨ds, u, rfl, hds, -, hlen, n, hs, rfl⟩ := hn
    obtain ⟨k, hk, hlt, rfl⟩ := (scaled_iff h hds hlen).1 hs
    exact ⟨_, ⟨ds, u, k, rfl, hds, hlen, hk, rfl, hlt⟩, rfl⟩

/-- `device` could be a name. -/
theorem name_device : Name "device".toList := ⟨'d', "evice".toList, rfl, by decide, List.all_eq_true.1 (by decide)⟩

theorem name_host : Name "host".toList := ⟨'h', "ost".toList, rfl, by decide, List.all_eq_true.1 (by decide)⟩

variable {P : Parser} {c : Call} {wh : Vmem.Argument} {t : Text} {l : Loc} {x : Operand × Loc} {offsetOk : Bool}

/-- What starts with a digit is no name. -/
theorem digits_ne_name {ds u : Text} (hds : Digits ds) : ¬Name (ds ++ u) := by
  intro h
  obtain ⟨c, cs, heq, hc, -⟩ := h
  cases ds with
  | nil => exact hds.1 rfl
  | cons d ds =>
    cases heq
    exact absurd ((isHead_of_isDigit (hds.2 _ List.mem_cons_self)).symm.trans hc) nofun

/-- A letter that takes only a name: what is read is the text itself. -/
theorem read_name_iff {q : Arg → Prop} (hq : ∀ r, q r → r.name ≠ [] ∧ r.hasNum = false) :
    (∃ r, readArg wh t = .ok r ∧ q r) ↔ Name t ∧ q ⟨t, [], false, false, 0⟩ := by
  constructor
  · intro h
    obtain ⟨r, hr, hqr⟩ := h
    rcases readArg_iff.1 hr with ⟨hn, rfl⟩ | ⟨ds, u, -, -, -, -, rfl⟩ | ⟨n, w, w', ds, u, -, -, -, -, -, -, -, rfl⟩
    · exact ⟨hn, hqr⟩
    · exact absurd rfl (hq _ hqr).1
    · exact nomatch (hq _ hqr).2
  · intro h
    exact ⟨_, readArg_iff.2 (.inl ⟨h.1, rfl⟩), h.2⟩

/-- A letter that takes only a number. -/
theorem read_number_iff {q : Arg → Prop} (hq : ∀ r, q r → r.name = [] ∧ r.hasNum = true) :
    (∃ r, readArg wh t = .ok r ∧ q r) ↔ ∃ ds u, t = ds ++ u ∧ Digits ds ∧ (∀ x ∈ u, isAlpha x = true) ∧ ds.length ≤ 15 ∧
      q ⟨[], u, false, true, BitVec.ofNat 64 (digitsValue ds)⟩ := by
  constructor
  · intro h
    obtain ⟨r, hr, hqr⟩ := h
    rcases readArg_iff.1 hr with ⟨hn, rfl⟩ | ⟨ds, u, ht, hds, hu, hlen, rfl⟩ | ⟨n, w, w', ds, u, -, hn, -, -, -, -, -, rfl⟩
    · exact nomatch (hq _ hqr).2
    · exact ⟨ds, u, ht, hds, hu, hlen, hqr⟩
    · exact absurd (hq _ hqr).1 (name_ne_nil hn)
  · intro h
    obtain ⟨ds, u, ht, hds, hu, hlen, hqr⟩ := h
    exact ⟨_, readArg_iff.2 (.inr (.inl ⟨ds, u, ht, hds, hu, hlen, rfl⟩)), hqr⟩

/-- The letter of a location accepts the two locations. -/
theorem argument_loc :
    (∃ r, readArg wh t = .ok r ∧ Fits P offsetOk .loc r {} l x) ↔ Grammar.Argument P c t .loc x.1 x.2 := by
  rw [read_name_iff fun r hr => ⟨hr.1, hr.2.1⟩]
  constructor
  · intro h
    exact ⟨h.2.2.2.1, h.2.2.2.2⟩
  · intro h
    have hn : Name t := by
      rcases h.2 with ⟨rfl, -⟩ | ⟨rfl, -⟩
      · exact name_device
      · exact name_host
    exact ⟨hn, name_ne_nil hn, rfl, h.1, h.2⟩

/-- That of a time accepts numbers with a unit of time. -/
theorem argument_time :
    (∃ r, readArg wh t = .ok r ∧ Fits P offsetOk .time r {} l x) ↔ Grammar.Argument P c t .time x.1 x.2 ∧ x.2 = l := by
  rw [read_number_iff fun r hr => ⟨hr.1, hr.2.1⟩]
  show _ ↔ (∃ n, Number timeUnits t n ∧ x.1 = ⟨none, BitVec.ofNat 64 n⟩) ∧ _
  rw [timeUnits_eq, number_iff times_nodup times_alpha [] false]
  constructor
  · intro h
    obtain ⟨ds, u, ht, hds, hu, hlen, -, -, hl, n, hn, ho⟩ := h
    exact ⟨⟨ds, u, ht, hds, hu, hlen, n, hn, ho⟩, hl⟩
  · intro h
    obtain ⟨⟨ds, u, ht, hds, hu, hlen, n, hn, ho⟩, hl⟩ := h
    exact ⟨ds, u, ht, hds, hu, hlen, rfl, rfl, hl, n, hn, ho⟩

/-- That of a size accepts numbers with a unit of size, and names with that kind. -/
theorem argument_size :
    (∃ r, readArg wh t = .ok r ∧ Fits P offsetOk .size r {} l x) ↔ Grammar.Argument P c t .size x.1 x.2 ∧ x.2 = l := by
  have hnum := @read_number_iff wh t (fun r => r.name = [] ∧ r.hasNum = true ∧ ∃ n, Scaled r sizes n ∧ x.1 = ⟨none, n⟩)
    fun r hr => ⟨hr.1, hr.2.1⟩
  have hvar := @read_name_iff wh t (fun r => r.name ≠ [] ∧ r.hasNum = false ∧ P.kinds[r.name]? = some .size ∧
    ∃ i, slotOf P r.name i ∧ x.1 = ⟨some i, 0⟩) fun r hr => ⟨hr.1, hr.2.1⟩
  show _ ↔ ((∃ n, Number sizeUnits t n ∧ x.1 = ⟨none, BitVec.ofNat 64 n⟩) ∨ ∃ i, Variable P t .size i ∧ x.1 = ⟨some i, 0⟩) ∧ _
  rw [sizeUnits_eq, number_iff sizes_nodup sizes_alpha [] false]
  constructor
  · intro h
    obtain ⟨r, hr, hl, h⟩ := h
    refine ⟨?_, hl⟩
    rcases h with h | h
    · obtain ⟨ds, u, ht, hds, hu, hlen, -, -, hs⟩ := hnum.1 ⟨r, hr, h⟩
      exact .inl ⟨ds, u, ht, hds, hu, hlen, hs⟩
    · obtain ⟨hn, -, -, hk, i, hi, ho⟩ := hvar.1 ⟨r, hr, h⟩
      exact .inr ⟨i, ⟨hn, hk, hi⟩, ho⟩
  · intro h
    obtain ⟨h, hl⟩ := h
    rcases h with ⟨ds, u, ht, hds, hu, hlen, hs⟩ | ⟨i, ⟨hn, hk, hi⟩, ho⟩
    · obtain ⟨r, hr, h⟩ := hnum.2 ⟨ds, u, ht, hds, hu, hlen, rfl, rfl, hs⟩
      exact ⟨r, hr, hl, .inl h⟩
    · obtain ⟨r, hr, h⟩ := hvar.2 ⟨hn, name_ne_nil hn, rfl, hk, i, hi, ho⟩
      exact ⟨r, hr, hl, .inr h⟩

/-- That of a chunk accepts names with that kind. -/
theorem argument_chunk :
    (∃ r, readArg wh t = .ok r ∧ Fits P offsetOk .chunk r {} l x) ↔ Grammar.Argument P c t .chunk x.1 x.2 ∧ x.2 = l := by
  rw [read_name_iff fun r hr => ⟨hr.2.1, hr.2.2.1⟩]
  constructor
  · intro h
    obtain ⟨hn, hl, -, -, hk, i, hi, ho⟩ := h
    exact ⟨⟨i, ⟨hn, hk, hi⟩, ho⟩, hl⟩
  · intro h
    obtain ⟨⟨i, ⟨hn, hk, hi⟩, ho⟩, hl⟩ := h
    exact ⟨hn, hl, name_ne_nil hn, rfl, hk, i, hi, ho⟩

/-- What is read of an address: a variable, or a variable and an offset. -/
theorem addr_read {r : Arg} (hr : readArg wh t = .ok r) (h : Fits P (c == .map) .addr r {} l x) : x.2 = l ∧
    ∃ name i, Variable P name .addr i ∧ ((t = name ∧ x.1 = ⟨some i, 0⟩) ∨
      (c = .map ∧ ∃ w w' num n, t = name ++ w ++ '+' :: (w' ++ num) ∧ (∀ y ∈ w, isSpace y = true) ∧ (∀ y ∈ w', isSpace y = true) ∧
        Number sizeUnits num n ∧ x.1 = ⟨some i, BitVec.ofNat 64 n⟩)) := by
  obtain ⟨hl, hne, hk, i, hi, h⟩ := h
  refine ⟨hl, ?_⟩
  rcases readArg_iff.1 hr with ⟨hn, rfl⟩ | ⟨ds, u, -, -, -, -, rfl⟩ | ⟨n, w, w', ds, u, ht, hn, hw, hw', hds, hu, hlen, rfl⟩
  · rcases h with ⟨-, ho⟩ | ⟨hplus, -⟩
    · exact ⟨t, i, ⟨hn, hk, hi⟩, .inl ⟨rfl, ho⟩⟩
    · cases hplus
  · exact absurd rfl hne
  · rcases h with ⟨hplus, -⟩ | ⟨-, hmap, hs⟩
    · cases hplus
    · obtain ⟨k, hnum, ho⟩ := (number_iff sizes_nodup sizes_alpha n true (some i)).2 ⟨ds, u, rfl, hds, hu, hlen, hs⟩
      exact ⟨n, i, ⟨hn, hk, hi⟩, .inr ⟨eq_of_beq hmap, w, w', ds ++ u, k, ht.trans (List.append_assoc ..).symm, hw, hw', hnum, ho⟩⟩

/-- That of an address accepts names with that kind, and an offset in `map`. -/
theorem argument_addr (hp : Printable t) :
    (∃ r, readArg wh t = .ok r ∧ Fits P (c == .map) .addr r {} l x) ↔ Grammar.Argument P c t .addr x.1 x.2 ∧ x.2 = l := by
  constructor
  · intro h
    obtain ⟨r, hr, h⟩ := h
    obtain ⟨hl, name, i, hv, h⟩ := addr_read hr h
    refine ⟨⟨name, i, hv, h.imp_right fun h => ?_⟩, hl⟩
    obtain ⟨hc, w, w', num, n, ht, hw, hw', hnum, ho⟩ := h
    have hpw : Printable w := fun y hy => hp y (by rw [ht]; simp [hy])
    have hpw' : Printable w' := fun y hy => hp y (by rw [ht]; simp [hy])
    exact ⟨hc, w, w', num, n, ht, blank_of_space hpw hw, blank_of_space hpw' hw', hnum, ho⟩
  · intro h
    obtain ⟨⟨n, i, ⟨hn, hk, hi⟩, h⟩, hl⟩ := h
    rcases h with ⟨rfl, ho⟩ | ⟨rfl, w, w', num, k, ht, hw, hw', hnum, ho⟩
    · exact ⟨_, readArg_iff.2 (.inl ⟨hn, rfl⟩), hl, name_ne_nil hn, hk, i, hi, .inl ⟨rfl, ho⟩⟩
    · obtain ⟨ds, u, rfl, hds, hu, hlen, hs⟩ := (number_iff sizes_nodup sizes_alpha n true (some i)).1 ⟨k, hnum, ho⟩
      exact ⟨_, readArg_iff.2 (.inr (.inr ⟨n, w, w', ds, u, ht.trans (List.append_assoc ..), hn, space_of_blank hw, space_of_blank hw', hds, hu,
        hlen, rfl⟩)), hl, name_ne_nil hn, hk, i, hi, .inr ⟨rfl, rfl, hs⟩⟩

/-- An argument that its letter accepts is one of the grammar, with the same operand and location. -/
theorem argument_iff (hp : Printable t) (sh : Shape) : (∃ r, readArg wh t = .ok r ∧ Fits P (c == .map) sh r {} l x) ↔
    Grammar.Argument P c t sh x.1 x.2 ∧ (sh ≠ .loc → x.2 = l) := by
  cases sh with
  | size => rw [argument_size (c := c), forall_prop_of_true nofun]
  | time => rw [argument_time (c := c), forall_prop_of_true nofun]
  | loc => rw [argument_loc (c := c), forall_prop_of_false (fun h => h rfl), and_true]
  | chunk => rw [argument_chunk (c := c), forall_prop_of_true nofun]
  | addr => rw [argument_addr hp, forall_prop_of_true nofun]

end GrammarAux

end Vmem
