import Vmem.Script

/-!
# The parser

The arguments of a line only read the state of the parser (`Gives`), so a line either adds one error and nothing else, or it adds one
statement and records its destination (`line_cases`). Which arguments are accepted, in terms of what was read, is `Fits`.
-/

namespace Vmem

/-- The slots have different names, and every name with a kind has a slot. -/
structure Parser.Sound (P : Parser) : Prop where
  nodup : P.p.vars.Nodup
  slot : ∀ (name : Text) (k : ValueKind), P.kinds[name]? = some k → name ∈ P.p.vars

namespace ScriptAux

open Vmem.Parser

variable {α γ : Type} {P P' : Parser}

/-! ## Characters -/

/-- The white space, one by one. -/
theorem isSpace_cases {c : Char} (h : isSpace c = true) : c = ' ' ∨ c = '\t' ∨ c = '\n' ∨ c = '\x0b' ∨ c = '\x0c' ∨ c = '\r' := by
  unfold isSpace at h
  simpa only [Bool.or_eq_true, beq_iff_eq, or_assoc] using h

/-- White space is no digit. -/
theorem isDigit_of_isSpace {c : Char} (h : isSpace c = true) : isDigit c = false := by
  rcases isSpace_cases h with rfl | rfl | rfl | rfl | rfl | rfl
  all_goals decide

/-- A digit is no white space. -/
theorem isSpace_of_isDigit {c : Char} (h : isDigit c = true) : isSpace c = false :=
  Bool.eq_false_iff.2 fun hs => absurd ((isDigit_of_isSpace hs).symm.trans h) nofun

/-! ## Code that only reads the state -/

/-- In the state the code returns or throws this, and leaves the state. -/
def Gives (x : ParserM α) (P : Parser) (r : Except ScriptError α) : Prop := x.run P = (r, P)

/-- A sequence is run piece by piece, up to the first error. -/
theorem run_bind (x : ParserM α) (f : α → ParserM γ) (P : Parser) : (x >>= f).run P =
    match x.run P with
    | (.ok a, P') => (f a).run P'
    | (.error e, P') => (.error e, P') := by
  rw [ExceptT.run_bind]
  show (StateT.bind x.run _) P = _
  unfold StateT.bind
  show (match x.run P with | (a, P') => _) = _
  cases x.run P with
  | mk r P' =>
    cases r with
    | ok a => rfl
    | error e => rfl

/-- What is returned is given. -/
theorem gives_pure (a : α) : Gives (pure a) P (.ok a) := rfl

theorem gives_throw (e : ScriptError) : Gives (throw e : ParserM α) P (.error e) := rfl

theorem gives_get : Gives (get : ParserM Parser) P (.ok P) := rfl

/-- So can a result that is at hand. -/
theorem gives_lift (r : Except ScriptError α) : Gives (liftM r : ParserM α) P r := by
  cases r with
  | ok a => rfl
  | error e => rfl

/-- A sequence gives what its last part gives. -/
theorem gives_bind {x : ParserM α} {f : α → ParserM γ} {a : α} {r : Except ScriptError γ} (hx : Gives x P (.ok a))
    (hf : Gives (f a) P r) : Gives (x >>= f) P r := by
  unfold Gives
  rw [run_bind, show x.run P = _ from hx]
  exact hf

/-- It throws what its first part throws. -/
theorem gives_bind_error {x : ParserM α} {f : α → ParserM γ} {e : ScriptError} (hx : Gives x P (.error e)) :
    Gives (x >>= f) P (.error e) := by
  unfold Gives
  rw [run_bind, show x.run P = _ from hx]

/-- Code gives one result. -/
theorem Gives.unique {x : ParserM α} {r r' : Except ScriptError α} (h : Gives x P r) (h' : Gives x P r') : r = r' :=
  congrArg Prod.fst (h.symm.trans h')

/-! ## Names -/

/-- The slot of a name. -/
def slotOf (P : Parser) (name : Text) (i : Nat) : Prop := P.p.vars[i]? = some name

/-- A name has one slot. -/
theorem slotOf_unique (hP : P.Sound) {name : Text} {i j : Nat} (hi : slotOf P name i) (hj : slotOf P name j) : i = j := by
  obtain ⟨hlt, hget⟩ := List.getElem?_eq_some_iff.1 hi
  obtain ⟨hlt', hget'⟩ := List.getElem?_eq_some_iff.1 hj
  exact hP.nodup.getElem_inj_iff.1 (hget.trans hget'.symm)

/-- A slot that is found has the name. -/
theorem findIdx?_of_slot {vars : List Text} {name : Text} {i : Nat} (h : vars.findIdx? (· == name) = some i) : vars[i]? = some name := by
  obtain ⟨hlt, heq, -⟩ := List.findIdx?_eq_some_iff_getElem.1 h
  rw [List.getElem?_eq_getElem hlt, eq_of_beq heq]

/-- A name that is there is found. -/
theorem exists_findIdx? {vars : List Text} {name : Text} (h : name ∈ vars) : ∃ i, vars.findIdx? (· == name) = some i := by
  cases hf : vars.findIdx? (· == name) with
  | some i => exact ⟨i, rfl⟩
  | none => exact absurd (beq_self_eq_true name) (by simpa using List.findIdx?_eq_none_iff.1 hf name h)

/-- A name that has a slot keeps it. -/
theorem slot_gives {name : Text} (h : name ∈ P.p.vars) : ∃ i, slotOf P name i ∧ Gives (slot name) P (.ok i) := by
  obtain ⟨i, hi⟩ := exists_findIdx? h
  refine ⟨i, findIdx?_of_slot hi, gives_bind gives_get ?_⟩
  rw [hi]
  exact gives_pure i

/-- A name is used as what it is at this point. -/
theorem use_gives (hP : P.Sound) (name : Text) (want : ValueKind) (wh : Argument) :
    (P.kinds[name]? = some want ∧ ∃ i, slotOf P name i ∧ Gives (use name want wh) P (.ok i)) ∨
    (P.kinds[name]? ≠ some want ∧ ∃ e, Gives (use name want wh) P (.error e)) := by
  cases hk : P.kinds[name]? with
  | none =>
    refine .inr ⟨nofun, .notDefined name, gives_bind gives_get ?_⟩
    rw [hk]
    exact gives_throw _
  | some k =>
    by_cases heq : k = want
    · subst heq
      obtain ⟨i, hi, hg⟩ := slot_gives (hP.slot name k hk)
      refine .inl ⟨rfl, i, hi, gives_bind gives_get ?_⟩
      rw [hk]
      dsimp only
      rw [if_pos rfl]
      exact hg
    · refine .inr ⟨fun h => heq (Option.some.inj h), .wrongKind wh want name k, gives_bind gives_get ?_⟩
      rw [hk]
      dsimp only
      rw [if_neg heq]
      exact gives_throw _

/-! ## Numbers -/

/-- The number of an argument times its unit. -/
def Scaled (r : Arg) (units : List (Text × BitVec 64)) (n : BitVec 64) : Prop :=
  ∃ u : BitVec 64, units.lookup r.unit = some u ∧ r.num.toNat * u.toNat < 2 ^ 64 ∧ n.toNat = r.num.toNat * u.toNat

/-- A number is scaled, or it does not fit. -/
theorem scaled_cases {r : Arg} {units : List (Text × BitVec 64)} {wh : Argument} (hpos : ∀ u, units.lookup r.unit = some u → u ≠ 0) :
    (∃ n, scaled r units wh = .ok n ∧ Scaled r units n) ∨ ((∃ e, scaled r units wh = .error e) ∧ ¬∃ n, Scaled r units n) := by
  unfold scaled
  cases hu : units.lookup r.unit with
  | none =>
    refine .inr ⟨⟨_, rfl⟩, fun h => ?_⟩
    obtain ⟨n, u, hu', -⟩ := h
    exact nomatch hu.symm.trans hu'
  | some u =>
    have hne : u.toNat ≠ 0 := fun h0 => hpos u hu (BitVec.eq_of_toNat_eq (by simpa using h0))
    have hiff : r.num > BitVec.allOnes 64 / u ↔ ¬r.num.toNat * u.toNat < 2 ^ 64 := by
      show BitVec.allOnes 64 / u < r.num ↔ _
      rw [BitVec.lt_def, BitVec.toNat_udiv, BitVec.toNat_allOnes, Nat.div_lt_iff_lt_mul (Nat.pos_of_ne_zero hne)]
      omega
    dsimp only
    by_cases hlt : r.num.toNat * u.toNat < 2 ^ 64
    · rw [if_neg fun h => hiff.1 h hlt]
      refine .inl ⟨_, rfl, u, hu, hlt, ?_⟩
      rw [BitVec.toNat_mul, Nat.mod_eq_of_lt hlt]
    · rw [if_pos (hiff.2 hlt)]
      refine .inr ⟨⟨_, rfl⟩, fun h => ?_⟩
      obtain ⟨n, u', hu', hlt', -⟩ := h
      cases hu.symm.trans hu'
      exact hlt hlt'

/-- No unit of sizes is zero. -/
theorem sizes_pos {t : Text} {u : BitVec 64} (h : sizes.lookup t = some u) : u ≠ 0 := by
  unfold sizes at h
  simp only [List.lookup_cons] at h
  repeat' split at h
  all_goals
    cases h
  all_goals decide

theorem times_pos {t : Text} {u : BitVec 64} (h : times.lookup t = some u) : u ≠ 0 := by
  unfold times at h
  simp only [List.lookup_cons] at h
  repeat' split at h
  all_goals
    cases h
  all_goals decide

/-! ## One argument -/

/-- An argument that its letter accepts, and what it fills. -/
def Fits (P : Parser) (offsetOk : Bool) (shape : Shape) (r : Arg) (o : Operand) (l : Loc) (x : Operand × Loc) : Prop :=
  match shape with
  | .loc => r.name ≠ [] ∧ r.hasNum = false ∧ x.1 = o ∧
      ((r.name = "device".toList ∧ x.2 = .device) ∨ (r.name = "host".toList ∧ x.2 = .host))
  | .time => r.name = [] ∧ r.hasNum = true ∧ x.2 = l ∧ ∃ n, Scaled r times n ∧ x.1 = { o with lit := n }
  | .size => x.2 = l ∧ ((r.name = [] ∧ r.hasNum = true ∧ ∃ n, Scaled r sizes n ∧ x.1 = { o with lit := n }) ∨
      (r.name ≠ [] ∧ r.hasNum = false ∧ P.kinds[r.name]? = some .size ∧ ∃ i, slotOf P r.name i ∧ x.1 = { o with var := some i }))
  | .chunk => x.2 = l ∧ r.name ≠ [] ∧ r.hasNum = false ∧ P.kinds[r.name]? = some .chunk ∧
      ∃ i, slotOf P r.name i ∧ x.1 = { o with var := some i }
  | .addr => x.2 = l ∧ r.name ≠ [] ∧ P.kinds[r.name]? = some .addr ∧ ∃ i, slotOf P r.name i ∧
      ((r.plus = false ∧ x.1 = { o with var := some i }) ∨
        (r.plus = true ∧ offsetOk = true ∧ ∃ n, Scaled r sizes n ∧ x.1 = ⟨some i, n⟩))

/-- What reading an argument gives: what fits, or an error. -/
def Decides (y : ParserM α) (P : Parser) (fits : α → Prop) : Prop :=
  (∃ x, Gives y P (.ok x) ∧ fits x) ∨ ((∃ e, Gives y P (.error e)) ∧ ∀ x, ¬fits x)

/-- An error decides for what nothing fits. -/
theorem Decides.throw {e : ScriptError} {fits : α → Prop} (h : ∀ x, ¬fits x) : Decides (throw e : ParserM α) P fits :=
  .inr ⟨⟨e, gives_throw e⟩, h⟩

/-- Scaling decides whether a number with a unit fits. -/
theorem scaled_decides {r : Arg} {units : List (Text × BitVec 64)} {wh : Argument} (hpos : ∀ u, units.lookup r.unit = some u → u ≠ 0)
    {f : BitVec 64 → Operand × Loc} {fits : Operand × Loc → Prop} (hfits : ∀ x, fits x ↔ ∃ n, Scaled r units n ∧ x = f n) :
    Decides (do
      let n ← scaled r units wh
      pure (f n)) P fits := by
  rcases @scaled_cases r units wh hpos with ⟨n, hn, hs⟩ | ⟨⟨e, he⟩, hno⟩
  · refine .inl ⟨f n, gives_bind ?_ (gives_pure _), (hfits _).2 ⟨n, hs, rfl⟩⟩
    rw [hn]
    exact gives_lift _
  · refine .inr ⟨⟨e, gives_bind_error ?_⟩, fun x hx => ?_⟩
    · rw [he]
      exact gives_lift _
    · obtain ⟨n, hs, -⟩ := (hfits x).1 hx
      exact hno ⟨n, hs⟩

/-- Looking a name up decides whether it has the kind. -/
theorem use_decides (hP : P.Sound) {name : Text} {k : ValueKind} {wh : Argument} {f : Nat → Operand × Loc} {fits : Operand × Loc → Prop}
    (hfits : ∀ x, fits x ↔ P.kinds[name]? = some k ∧ ∃ i, slotOf P name i ∧ x = f i) :
    Decides (do
      let i ← use name k wh
      pure (f i)) P fits := by
  rcases use_gives hP name k wh with ⟨hk, i, hi, hg⟩ | ⟨hk, e, hg⟩
  · exact .inl ⟨f i, gives_bind hg (gives_pure _), (hfits _).2 ⟨hk, i, hi, rfl⟩⟩
  · exact .inr ⟨⟨e, gives_bind_error hg⟩, fun x hx => hk ((hfits x).1 hx).1⟩

/-- A name decides for a location. -/
theorem convert_loc {name unit : Text} {plus : Bool} {num : BitVec 64} {wh : Argument} {offsetOk : Bool} {o : Operand} {l : Loc}
    (hne : name ≠ []) : Decides (convert wh .loc offsetOk ⟨name, unit, plus, false, num⟩ o l) P
      (Fits P offsetOk .loc ⟨name, unit, plus, false, num⟩ o l) := by
  have hb : name.isEmpty = false := by
    cases name with
    | nil => exact absurd rfl hne
    | cons c cs => rfl
  unfold convert
  dsimp only
  rw [hb]
  by_cases hd : name = "device".toList
  · rw [hd]
    exact .inl ⟨(o, .device), gives_pure _, hd ▸ hne, rfl, rfl, .inl ⟨rfl, rfl⟩⟩
  · by_cases hh : name = "host".toList
    · rw [hh]
      exact .inl ⟨(o, .host), gives_pure _, hh ▸ hne, rfl, rfl, .inr ⟨rfl, rfl⟩⟩
    · have hbad : (!(!false && !false) || (name != "device".toList && name != "host".toList)) = true := by
        rw [bne_iff_ne.2 hd, bne_iff_ne.2 hh]
        rfl
      rw [if_pos hbad]
      refine .throw fun x hx => ?_
      rcases hx.2.2.2 with h | h
      · exact hd h.1
      · exact hh h.1

/-- Each letter decides for what fits it. -/
theorem convert_decides (hP : P.Sound) (wh : Argument) (shape : Shape) (offsetOk : Bool) (r : Arg) (o : Operand) (l : Loc) :
    Decides (convert wh shape offsetOk r o l) P (Fits P offsetOk shape r o l) := by
  obtain ⟨name, unit, plus, hasNum, num⟩ := r
  cases shape with
  | loc =>
    cases hasNum with
    | true =>
      have hbare : convert wh .loc offsetOk ⟨name, unit, plus, true, num⟩ o l = throw (.notLocation wh) := by
        unfold convert
        simp
      rw [hbare]
      exact .throw fun x hx => nomatch hx.2.1
    | false =>
      by_cases hne : name = []
      · rw [hne]
        exact .throw fun x hx => hx.1 rfl
      · exact convert_loc hne
  | time =>
    cases name with
    | cons c cs => exact .throw fun x hx => nomatch hx.1
    | nil =>
      cases hasNum with
      | false => exact .throw fun x hx => nomatch hx.2.1
      | true =>
        refine scaled_decides (fun u hu => times_pos hu) fun x => ?_
        constructor
        · intro h
          obtain ⟨-, -, hl, n, hs, ho⟩ := h
          exact ⟨n, hs, Prod.ext ho hl⟩
        · intro h
          obtain ⟨n, hs, rfl⟩ := h
          exact ⟨rfl, rfl, rfl, n, hs, rfl⟩
  | size =>
    cases name with
    | nil =>
      cases hasNum with
      | false =>
        refine .throw fun x hx => ?_
        rcases hx.2 with h | h
        · exact nomatch h.2.1
        · exact h.1 rfl
      | true =>
        refine scaled_decides (fun u hu => sizes_pos hu) fun x => ?_
        constructor
        · intro h
          obtain ⟨hl, h⟩ := h
          rcases h with ⟨-, -, n, hs, ho⟩ | ⟨hne, -⟩
          · exact ⟨n, hs, Prod.ext ho hl⟩
          · exact absurd rfl hne
        · intro h
          obtain ⟨n, hs, rfl⟩ := h
          exact ⟨rfl, .inl ⟨rfl, rfl, n, hs, rfl⟩⟩
    | cons c cs =>
      cases hasNum with
      | true =>
        refine .throw fun x hx => ?_
        rcases hx.2 with h | h
        · exact nomatch h.1
        · exact nomatch h.2.1
      | false =>
        refine use_decides hP fun x => ?_
        constructor
        · intro h
          obtain ⟨hl, h⟩ := h
          rcases h with ⟨hnil, -⟩ | ⟨-, -, hk, i, hi, ho⟩
          · cases hnil
          · exact ⟨hk, i, hi, Prod.ext ho hl⟩
        · intro h
          obtain ⟨hk, i, hi, rfl⟩ := h
          exact ⟨rfl, .inr ⟨nofun, rfl, hk, i, hi, rfl⟩⟩
  | chunk =>
    cases name with
    | nil => exact .throw fun x hx => hx.2.1 rfl
    | cons c cs =>
      cases hasNum with
      | true => exact .throw fun x hx => nomatch hx.2.2.1
      | false =>
        refine use_decides hP fun x => ?_
        constructor
        · intro h
          obtain ⟨hl, -, -, hk, i, hi, ho⟩ := h
          exact ⟨hk, i, hi, Prod.ext ho hl⟩
        · intro h
          obtain ⟨hk, i, hi, rfl⟩ := h
          exact ⟨rfl, nofun, rfl, hk, i, hi, rfl⟩
  | addr =>
    cases name with
    | nil => exact .throw fun x hx => hx.2.1 rfl
    | cons c cs =>
      cases plus with
      | false =>
        refine use_decides hP fun x => ?_
        constructor
        · intro h
          obtain ⟨hl, -, hk, i, hi, h⟩ := h
          rcases h with ⟨-, ho⟩ | ⟨hplus, -⟩
          · exact ⟨hk, i, hi, Prod.ext ho hl⟩
          · cases hplus
        · intro h
          obtain ⟨hk, i, hi, rfl⟩ := h
          exact ⟨rfl, nofun, hk, i, hi, .inl ⟨rfl, rfl⟩⟩
      | true =>
        cases offsetOk with
        | false =>
          refine .throw fun x hx => ?_
          obtain ⟨-, -, -, i, -, h⟩ := hx
          rcases h with ⟨hplus, -⟩ | ⟨-, hok, -⟩
          · cases hplus
          · cases hok
        | true =>
          rcases use_gives hP (c :: cs) .addr wh with ⟨hk, i, hi, hg⟩ | ⟨hk, e, hg⟩
          · have hd : Decides (do
                let n ← scaled ⟨c :: cs, unit, true, hasNum, num⟩ sizes wh
                pure ((⟨some i, n⟩ : Operand), l)) P fun x =>
                  ∃ n, Scaled ⟨c :: cs, unit, true, hasNum, num⟩ sizes n ∧ x = (⟨some i, n⟩, l) :=
              scaled_decides (fun u hu => sizes_pos hu) fun x => Iff.rfl
            rcases hd with ⟨x, hgx, n, hs, rfl⟩ | ⟨⟨e, he⟩, hno⟩
            · exact .inl ⟨_, gives_bind hg hgx, rfl, nofun, hk, i, hi, .inr ⟨rfl, rfl, n, hs, rfl⟩⟩
            · refine .inr ⟨⟨e, gives_bind hg he⟩, fun x hx => ?_⟩
              obtain ⟨hl, -, -, j, hj, h⟩ := hx
              cases slotOf_unique hP hi hj
              rcases h with ⟨hplus, -⟩ | ⟨-, -, n, hs, ho⟩
              · cases hplus
              · exact hno x ⟨n, hs, Prod.ext ho hl⟩
          · exact .inr ⟨⟨e, gives_bind_error hg⟩, fun x hx => hk hx.2.2.1⟩

/-- A number is scaled in one way. -/
theorem Scaled.unique {r : Arg} {units : List (Text × BitVec 64)} {n n' : BitVec 64} (h : Scaled r units n) (h' : Scaled r units n') :
    n = n' := by
  obtain ⟨u, hu, -, hn⟩ := h
  obtain ⟨u', hu', -, hn'⟩ := h'
  cases hu.symm.trans hu'
  exact BitVec.eq_of_toNat_eq (hn.trans hn'.symm)

/-- An argument fits in one way. -/
theorem Fits.unique (hP : P.Sound) {offsetOk : Bool} {shape : Shape} {r : Arg} {o : Operand} {l : Loc} {x x' : Operand × Loc}
    (h : Fits P offsetOk shape r o l x) (h' : Fits P offsetOk shape r o l x') : x = x' := by
  cases shape with
  | loc =>
    obtain ⟨-, -, ho, h⟩ := h
    obtain ⟨-, -, ho', h'⟩ := h'
    refine Prod.ext (ho.trans ho'.symm) ?_
    rcases h with ⟨hn, hl⟩ | ⟨hn, hl⟩
    · rcases h' with ⟨-, hl'⟩ | ⟨hn', -⟩
      · exact hl.trans hl'.symm
      · exact absurd (hn.symm.trans hn') (by decide)
    · rcases h' with ⟨hn', -⟩ | ⟨-, hl'⟩
      · exact absurd (hn.symm.trans hn') (by decide)
      · exact hl.trans hl'.symm
  | time =>
    obtain ⟨-, -, hl, n, hs, ho⟩ := h
    obtain ⟨-, -, hl', n', hs', ho'⟩ := h'
    cases hs.unique hs'
    exact Prod.ext (ho.trans ho'.symm) (hl.trans hl'.symm)
  | size =>
    obtain ⟨hl, h⟩ := h
    obtain ⟨hl', h'⟩ := h'
    refine Prod.ext ?_ (hl.trans hl'.symm)
    rcases h with ⟨hn, -, n, hs, ho⟩ | ⟨hn, -, -, i, hi, ho⟩
    · rcases h' with ⟨-, -, n', hs', ho'⟩ | ⟨hn', -⟩
      · cases hs.unique hs'
        exact ho.trans ho'.symm
      · exact absurd hn hn'
    · rcases h' with ⟨hn', -⟩ | ⟨-, -, -, j, hj, ho'⟩
      · exact absurd hn' hn
      · cases slotOf_unique hP hi hj
        exact ho.trans ho'.symm
  | chunk =>
    obtain ⟨hl, -, -, -, i, hi, ho⟩ := h
    obtain ⟨hl', -, -, -, j, hj, ho'⟩ := h'
    cases slotOf_unique hP hi hj
    exact Prod.ext (ho.trans ho'.symm) (hl.trans hl'.symm)
  | addr =>
    obtain ⟨hl, -, -, i, hi, h⟩ := h
    obtain ⟨hl', -, -, j, hj, h'⟩ := h'
    cases slotOf_unique hP hi hj
    refine Prod.ext ?_ (hl.trans hl'.symm)
    rcases h with ⟨hp, ho⟩ | ⟨hp, -, n, hs, ho⟩
    · rcases h' with ⟨-, ho'⟩ | ⟨hp', -⟩
      · exact ho.trans ho'.symm
      · exact nomatch hp.symm.trans hp'
    · rcases h' with ⟨hp', -⟩ | ⟨-, -, n', hs', ho'⟩
      · exact nomatch hp.symm.trans hp'
      · cases hs.unique hs'
        exact ho.trans ho'.symm

/-! ## All arguments -/

/-- Decisions can be taken one after the other. -/
theorem Decides.bind {x : ParserM α} {f : α → ParserM γ} {fits : α → Prop} {fits' : α → γ → Prop} (hx : Decides x P fits)
    (hunique : ∀ a a', fits a → fits a' → a = a') (hf : ∀ a, fits a → Decides (f a) P (fits' a)) :
    Decides (x >>= f) P fun y => ∃ a, fits a ∧ fits' a y := by
  rcases hx with ⟨a, hg, ha⟩ | ⟨⟨e, he⟩, hno⟩
  · rcases hf a ha with ⟨y, hgy, hy⟩ | ⟨⟨e, he⟩, hno⟩
    · exact .inl ⟨y, gives_bind hg hgy, a, ha, hy⟩
    · refine .inr ⟨⟨e, gives_bind hg he⟩, fun y hy => ?_⟩
      obtain ⟨a', ha', hy⟩ := hy
      rw [hunique a' a ha' ha] at hy
      exact hno y hy
  · exact .inr ⟨⟨e, gives_bind_error he⟩, fun y hy => let ⟨a, ha, _⟩ := hy; hno a ha⟩

/-- A result that is at hand decides. -/
theorem lift_decides (r : Except ScriptError α) : Decides (liftM r : ParserM α) P fun a => r = .ok a := by
  cases r with
  | ok a => exact .inl ⟨a, gives_lift _, rfl⟩
  | error e => exact .inr ⟨⟨e, gives_lift _⟩, fun a h => nomatch h⟩

/-- The operand of an argument. -/
def operand (i : Nat) (st : Stmt) : Operand := if i = 0 then st.a else st.b

/-- Fill the operand of an argument, and the location. -/
def fill (i : Nat) (st : Stmt) (x : Operand × Loc) : Stmt := if i = 0 then { st with a := x.1, loc := x.2 } else { st with b := x.1, loc := x.2 }

/-- Arguments that their letters accept, and the statement that they fill. -/
def Converted (P : Parser) (c : Call) : List Shape → List Text → Nat → Stmt → Stmt → Prop
  | sh :: shs, a :: as, i, st, st' => ∃ r, readArg ⟨c, i + 1⟩ a = .ok r ∧ ∃ x, Fits P (c == .map) sh r (operand i st) st.loc x ∧
      Converted P c shs as (i + 1) (fill i st x) st'
  | _, _, _, st, st' => st' = st

/-- All arguments of a call are decided. -/
theorem converts_decides (hP : P.Sound) (c : Call) (shs : List Shape) : ∀ (as : List Text) (i : Nat) (st : Stmt),
    Decides (converts c shs as i st) P (Converted P c shs as i st) := by
  induction shs with
  | nil => exact fun as i st => .inl ⟨st, gives_pure _, rfl⟩
  | cons sh shs ih =>
    intro as i st
    cases as with
    | nil => exact .inl ⟨st, gives_pure _, rfl⟩
    | cons a as =>
      refine (lift_decides _).bind (fun r r' h h' => Except.ok.inj (h.symm.trans h')) fun r _ => ?_
      exact (convert_decides hP _ sh _ r _ _).bind (fun x x' h h' => h.unique hP h') fun x _ => ih as (i + 1) (fill i st x)

/-- One argument: it fills the first operand. -/
theorem converted_one {c : Call} {sh : Shape} {as : List Text} {st st' : Stmt} (hlen : as.length = 1) :
    Converted P c [sh] as 0 st st' ↔ ∃ a r x, as = [a] ∧ readArg ⟨c, 1⟩ a = .ok r ∧ Fits P (c == .map) sh r st.a st.loc x ∧
      st' = { st with a := x.1, loc := x.2 } := by
  obtain ⟨a, rfl⟩ := List.length_eq_one_iff.1 hlen
  constructor
  · intro h
    obtain ⟨r, hr, x, hx, rfl⟩ := h
    exact ⟨a, r, x, rfl, hr, hx, rfl⟩
  · intro h
    obtain ⟨a', r, x, heq, hr, hx, rfl⟩ := h
    cases heq
    exact ⟨r, hr, x, hx, rfl⟩

/-- Two arguments: the second fills the second operand. -/
theorem converted_two {c : Call} {sh sh' : Shape} {as : List Text} {st st' : Stmt} (hlen : as.length = 2) :
    Converted P c [sh, sh'] as 0 st st' ↔ ∃ a a' r r' x x', as = [a, a'] ∧ readArg ⟨c, 1⟩ a = .ok r ∧ readArg ⟨c, 2⟩ a' = .ok r' ∧
      Fits P (c == .map) sh r st.a st.loc x ∧ Fits P (c == .map) sh' r' st.b x.2 x' ∧
      st' = { st with a := x.1, b := x'.1, loc := x'.2 } := by
  obtain ⟨a, a', rfl⟩ := List.length_eq_two.1 hlen
  constructor
  · intro h
    obtain ⟨r, hr, x, hx, r', hr', x', hx', rfl⟩ := h
    exact ⟨a, a', r, r', x, x', rfl, hr, hr', hx, hx', rfl⟩
  · intro h
    obtain ⟨b, b', r, r', x, x', heq, hr, hr', hx, hx', rfl⟩ := h
    cases heq
    exact ⟨r, hr, x, hx, r', hr', x', hx', rfl⟩

/-- A call has at most two arguments, and only the last is a location. -/
theorem args_cases (c : Call) : c.args = [] ∨ (∃ sh, c.args = [sh]) ∨ ∃ sh sh', c.args = [sh, sh'] ∧ sh ≠ .loc := by
  cases c
  all_goals first
    | exact .inl rfl
    | exact .inr (.inl ⟨_, rfl⟩)
    | exact .inr (.inr ⟨_, _, rfl, nofun⟩)

/-! ## A line -/

/-- The arguments of a call are converted in one way. -/
theorem Converted.unique (hP : P.Sound) {c : Call} {shs : List Shape} : ∀ {as : List Text} {i : Nat} {st st' st'' : Stmt},
    Converted P c shs as i st st' → Converted P c shs as i st st'' → st' = st'' := by
  induction shs with
  | nil => exact fun h h' => h.trans h'.symm
  | cons sh shs ih =>
    intro as i st st' st'' h h'
    cases as with
    | nil => exact h.trans h'.symm
    | cons a as =>
      obtain ⟨r, hr, x, hx, h⟩ := h
      obtain ⟨r', hr', x', hx', h'⟩ := h'
      cases hr.symm.trans hr'
      cases hx.unique hP hx'
      exact ih h h'

/-- A name that may not be assigned. -/
def Reserved (dst : Text) : Prop := dst = "device".toList ∨ dst = "host".toList ∨ (Call.find dst).isSome

/-- A destination that the call allows, and the statement with its slot. -/
def Assigned (P : Parser) (dst : Text) (st st' : Stmt) : Prop :=
  (dst = [] ∧ st' = st) ∨ (dst ≠ [] ∧ st.call.result ≠ .none ∧ ¬Reserved dst ∧
    ∃ i, slotOf (P.accept dst st) dst i ∧ st' = { st with dst := some i })

/-- A new name gets the next slot. -/
theorem slot_new {name : Text} (h : name ∉ P.p.vars) :
    (slot name).run P = (.ok P.p.vars.length, { P with p := { P.p with vars := P.p.vars ++ [name] } }) := by
  have hf : P.p.vars.findIdx? (· == name) = none := by
    rw [List.findIdx?_eq_none_iff]
    intro x hx
    exact beq_false_of_ne fun heq => h (heq ▸ hx)
  unfold slot
  rw [run_bind]
  simp only [show ExceptT.run (get : ParserM Parser) P = (.ok P, P) from rfl, hf]
  rfl

/-- The state after an assignment: that of the whole statement, without the statement. -/
theorem assign_cases (P : Parser) (dst : Text) (st : Stmt) :
    (∃ st', Assigned P dst st st' ∧
      (assign dst st).run P = (.ok st', { P.accept dst st with p := { (P.accept dst st).p with stmts := P.p.stmts } })) ∨
    ((∃ e, Gives (assign dst st) P (.error e)) ∧ ∀ st', ¬Assigned P dst st st') := by
  by_cases hd : dst = []
  · subst hd
    refine .inl ⟨st, .inl ⟨rfl, rfl⟩, ?_⟩
    unfold Parser.accept
    rw [if_pos (.inl rfl), if_pos rfl]
    rfl
  · have hb : dst.isEmpty = false := by
      cases dst with
      | nil => exact absurd rfl hd
      | cons c cs => rfl
    unfold assign
    rw [hb, if_neg Bool.false_ne_true]
    by_cases hr : st.call.result = .none
    · rw [if_pos hr]
      refine .inr ⟨⟨_, gives_throw _⟩, fun st' h => ?_⟩
      rcases h with h | h
      · exact hd h.1
      · exact h.2.1 hr
    · rw [if_neg hr]
      by_cases hres : dst = "device".toList ∨ dst = "host".toList ∨ (Call.find dst).isSome = true
      · rw [if_pos hres]
        refine .inr ⟨⟨_, gives_throw _⟩, fun st' h => ?_⟩
        rcases h with h | h
        · exact hd h.1
        · exact h.2.2.1 hres
      · rw [if_neg hres]
        by_cases hmem : dst ∈ P.p.vars
        · obtain ⟨i, hi, hg⟩ := slot_gives hmem
          have hvars : (P.accept dst st).p.vars = P.p.vars := if_pos (.inr hmem)
          refine .inl ⟨{ st with dst := some i }, .inr ⟨hd, hr, hres, i, ?_, rfl⟩, ?_⟩
          · unfold slotOf
            rw [hvars]
            exact hi
          · rw [run_bind, show (slot dst).run P = _ from hg]
            unfold Parser.accept
            rw [if_pos (.inr hmem), if_neg hd]
            rfl
        · have hvars : (P.accept dst st).p.vars = P.p.vars ++ [dst] := if_neg fun h => h.elim hd hmem
          refine .inl ⟨{ st with dst := some P.p.vars.length }, .inr ⟨hd, hr, hres, _, ?_, rfl⟩, ?_⟩
          · unfold slotOf
            rw [hvars, List.getElem?_append_right le_rfl, Nat.sub_self]
            rfl
          · rw [run_bind, slot_new hmem]
            unfold Parser.accept
            rw [if_neg fun h => h.elim hd hmem, if_neg hd]
            rfl

/-- A destination leaves the call. -/
theorem Assigned.call {dst : Text} {st st' : Stmt} (h : Assigned P dst st st') : st'.call = st.call := by
  rcases h with ⟨-, rfl⟩ | ⟨-, -, -, i, -, rfl⟩
  · rfl
  · rfl

/-- Accepting a statement records its destination. -/
theorem Assigned.accept_eq {dst : Text} {st st' : Stmt} (h : Assigned P dst st st') : P.accept dst st =
    { P.accept dst st' with p := { (P.accept dst st').p with stmts := P.p.stmts ++ [st] } } := by
  unfold Parser.accept
  rw [h.call]

/-- A line that is a statement in this state. -/
def Parsed (P : Parser) (no : Nat) (s dst : Text) (st : Stmt) : Prop :=
  ∃ m, callRe.fullMatch s = some m ∧ dst = m.text 1 ∧ ∃ c, Call.find (m.text 2) = some c ∧
    (argTexts (m.text 3)).length = c.args.length ∧
    ∃ st0, Converted P c c.args (argTexts (m.text 3)) 0 { line := no, text := s, call := c } st0 ∧ Assigned P dst st0 st

/-- A line is parsed as one statement, or gives an error and leaves the state. -/
theorem stmt_cases (hP : P.Sound) (no : Nat) (s : Text) :
    (∃ dst st, Parsed P no s dst st ∧ (stmt no s).run P = (.ok (), P.accept dst st)) ∨
    ((∃ e, Gives (stmt no s) P (.error e)) ∧ ∀ dst st, ¬Parsed P no s dst st) := by
  unfold stmt
  cases hm : callRe.fullMatch s with
  | none =>
    refine .inr ⟨⟨_, gives_throw _⟩, fun dst st h => ?_⟩
    obtain ⟨m, hm', -⟩ := h
    exact nomatch hm.symm.trans hm'
  | some m =>
    dsimp only
    cases hc : Call.find (m.text 2) with
    | none =>
      refine .inr ⟨⟨_, gives_throw _⟩, fun dst st h => ?_⟩
      obtain ⟨m', hm', -, c, hc', -⟩ := h
      cases hm.symm.trans hm'
      exact nomatch hc.symm.trans hc'
    | some c =>
      dsimp only
      by_cases hlen : (argTexts (m.text 3)).length = c.args.length
      · rw [if_neg fun h => h hlen]
        rcases converts_decides hP c c.args (argTexts (m.text 3)) 0 { line := no, text := s, call := c } with
          ⟨st0, hg, hconv⟩ | ⟨⟨e, he⟩, hno⟩
        · rcases assign_cases P (m.text 1) st0 with ⟨st, hst, hrun⟩ | ⟨⟨e, he⟩, hno⟩
          · refine .inl ⟨m.text 1, st, ⟨m, hm, rfl, c, hc, hlen, st0, hconv, hst⟩, ?_⟩
            rw [run_bind, show (converts c c.args (argTexts (m.text 3)) 0 _).run P = _ from hg]
            dsimp only
            rw [run_bind, hrun]
            rw [hst.accept_eq]
            rfl
          · refine .inr ⟨⟨e, gives_bind hg (gives_bind_error he)⟩, fun dst st h => ?_⟩
            obtain ⟨m', hm', hdst, c', hc', -, st1, hconv', hst⟩ := h
            cases hm.symm.trans hm'
            cases hc.symm.trans hc'
            rw [hconv'.unique hP hconv, hdst] at hst
            exact hno st hst
        · refine .inr ⟨⟨e, gives_bind_error he⟩, fun dst st h => ?_⟩
          obtain ⟨m', hm', -, c', hc', -, st1, hconv, -⟩ := h
          cases hm.symm.trans hm'
          cases hc.symm.trans hc'
          exact hno st1 hconv
      · rw [if_pos hlen]
        refine .inr ⟨⟨_, gives_throw _⟩, fun dst st h => ?_⟩
        obtain ⟨m', hm', -, c', hc', hlen', -⟩ := h
        cases hm.symm.trans hm'
        cases hc.symm.trans hc'
        exact hlen hlen'

/-- A line is blank and changes nothing, or it adds a statement, or it adds an error. -/
theorem line_cases (hP : P.Sound) (no : Nat) (raw : Text) :
    (content raw = [] ∧ line no raw P = P) ∨
    (content raw ≠ [] ∧ ∃ dst st, Parsed P no (content raw) dst st ∧ line no raw P = P.accept dst st) ∨
    (content raw ≠ [] ∧ (∃ e, line no raw P = P.reject no e (content raw)) ∧ ∀ dst st, ¬Parsed P no (content raw) dst st) := by
  have hcontent : trim (raw.takeWhile (· ≠ '#')) = content raw := rfl
  unfold line
  simp only [hcontent]
  cases hs : content raw with
  | nil => exact .inl ⟨rfl, rfl⟩
  | cons c cs =>
    rw [if_neg (by simp)]
    have hne : c :: cs ≠ [] := List.cons_ne_nil c cs
    rcases stmt_cases hP no (c :: cs) with ⟨dst, st, hparsed, hrun⟩ | ⟨⟨e, he⟩, hno⟩
    · rw [hrun]
      exact .inr (.inl ⟨hne, dst, st, hparsed, rfl⟩)
    · rw [show (stmt no (c :: cs)).run P = _ from he]
      exact .inr (.inr ⟨hne, ⟨e, rfl⟩, hno⟩)

/-- Accepting a statement keeps the slots in order. -/
theorem sound_accept (hP : P.Sound) (dst : Text) (st : Stmt) : (P.accept dst st).Sound := by
  by_cases hd : dst = []
  · have h1 : (P.accept dst st).p.vars = P.p.vars := if_pos (.inl hd)
    have h2 : (P.accept dst st).kinds = P.kinds := if_pos hd
    exact ⟨by rw [h1]; exact hP.nodup, fun name k => by rw [h1, h2]; exact hP.slot name k⟩
  · have h2 : (P.accept dst st).kinds = P.kinds.insert dst st.call.result := if_neg hd
    have hslot (name : Text) (k : ValueKind) (h : (P.accept dst st).kinds[name]? = some k) : name = dst ∨ name ∈ P.p.vars := by
      rw [h2, OrdMap.getElem?_insert] at h
      by_cases heq : name = dst
      · exact .inl heq
      · rw [if_neg heq] at h
        exact .inr (hP.slot name k h)
    by_cases hmem : dst ∈ P.p.vars
    · have h1 : (P.accept dst st).p.vars = P.p.vars := if_pos (.inr hmem)
      refine ⟨by rw [h1]; exact hP.nodup, fun name k h => ?_⟩
      rw [h1]
      exact (hslot name k h).elim (fun heq => heq ▸ hmem) id
    · have h1 : (P.accept dst st).p.vars = P.p.vars ++ [dst] := if_neg fun h => h.elim hd hmem
      refine ⟨?_, fun name k h => ?_⟩
      · rw [h1]
        exact List.nodup_append.2 ⟨hP.nodup, List.nodup_singleton _, fun a ha b hb heq => hmem (by
          rw [List.mem_singleton.1 hb] at heq
          exact heq ▸ ha)⟩
      · rw [h1, List.mem_append, List.mem_singleton]
        exact (hslot name k h).symm

theorem sound_line (hP : P.Sound) (no : Nat) (raw : Text) : (line no raw P).Sound := by
  rcases line_cases hP no raw with ⟨-, h⟩ | ⟨-, dst, st, -, h⟩ | ⟨-, ⟨e, h⟩, -⟩
  · rw [h]
    exact hP
  · rw [h]
    exact sound_accept hP dst st
  · rw [h]
    exact ⟨hP.nodup, hP.slot⟩

theorem sound_lines (ls : List Text) : ∀ {no : Nat} {P : Parser}, P.Sound → (lines no ls P).Sound := by
  induction ls with
  | nil => exact fun h => h
  | cons l ls ih => exact fun h => ih (sound_line h _ l)

/-- There are no slots before the first line. -/
theorem sound_empty : Parser.Sound {} := by
  refine ⟨List.nodup_nil, fun name k h => ?_⟩
  simp at h

end ScriptAux

end Vmem
