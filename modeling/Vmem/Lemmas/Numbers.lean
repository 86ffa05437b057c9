import Vmem.Numbers
import Vmem.Lemmas.Runner
import Vmem.Lemmas.Arguments
import Vmem.Lemmas.ManagerSteps
import Vmem.Lib.Words

/-!
# Numbers on their way to a primitive

What an accepted argument denotes is what its operand is worth in the slots (`denotes_iff`); what a call of the manager acts on is its
number, rounded up or not at all (`reserve_acted`, `create_acted`, `map_acted`).
-/

namespace Vmem

namespace NumbersAux

open Grammar GrammarAux ScriptAux

variable {P : Parser} {p : Program} {c : Ctx} {s : Stmt}

/-! ## From the text to the operand -/

/-- An argument that was read for an operand. -/
def ReadFor (P : Parser) (c : Call) (sh : Shape) (a : Text) (o : Operand) : Prop :=
  ∃ wh r l x, readArg wh a = .ok r ∧ Fits P (c == .map) sh r {} l x ∧ x.1 = o

/-- Each argument of the statement was read for its operand. -/
def Read (P : Parser) (s : Stmt) : Prop :=
  ∀ (i : Nat) (sh : Shape), s.call.args[i]? = some sh → ∃ a, s.argTexts[i]? = some a ∧ ReadFor P s.call sh a (Grammar.operand s i)

/-- A parsed statement reads its arguments from the text. -/
theorem read_of_parsed {no : Nat} {t dst : Text} (h : Parsed P no t dst s) : Read P s := by
  obtain ⟨m, hm, -, call, -, hlen, st0, hconv, hassigned⟩ := h
  have hs : s.text = st0.text ∧ s.call = st0.call ∧ s.a = st0.a ∧ s.b = st0.b := by
    rcases hassigned with ⟨-, rfl⟩ | ⟨-, -, -, i, -, rfl⟩
    all_goals exact ⟨rfl, rfl, rfl, rfl⟩
  have hargs : s.text = t → s.argTexts = argTexts (m.text 3) := by
    intro ht
    unfold Stmt.argTexts
    rw [ht, hm]
  intro i sh hi
  rcases args_cases call with hcall | ⟨sh0, hcall⟩ | ⟨sh0, sh1, hcall, -⟩
  · rw [hcall] at hlen hconv
    rw [List.length_eq_zero_iff.1 hlen] at hconv
    rw [hs.2.1, show st0 = _ from hconv] at hi
    rw [hcall] at hi
    exact nomatch hi
  · rw [hcall] at hlen hconv
    obtain ⟨a, r, x, has, hr, hfits, rfl⟩ := (converted_one hlen).1 hconv
    rw [hs.2.1, hcall] at hi
    rw [hargs hs.1, hs.2.1, has]
    cases i with
    | zero =>
      cases hi
      exact ⟨a, rfl, _, r, _, x, hr, hfits, hs.2.2.1.symm⟩
    | succ i => exact nomatch hi
  · rw [hcall] at hlen hconv
    obtain ⟨a, a', r, r', x, x', has, hr, hr', hfits, hfits', rfl⟩ := (converted_two hlen).1 hconv
    rw [hs.2.1, hcall] at hi
    rw [hargs hs.1, hs.2.1, has]
    match i with
    | 0 =>
      cases hi
      exact ⟨a, rfl, _, r, _, x, hr, hfits, hs.2.2.1.symm⟩
    | 1 =>
      cases hi
      exact ⟨a', rfl, _, r', _, x', hr', hfits', hs.2.2.2.symm⟩
    | i + 2 => exact nomatch hi

/-! ## What an argument denotes -/

/-- A unit has one factor. -/
theorem unit_unique {units : List (Text × BitVec 64)} (h : (units.map Prod.fst).Nodup) {t : Text} {k k' : Nat}
    (hk : (t, k) ∈ units.map fun x => (x.1, x.2.toNat)) (hk' : (t, k') ∈ units.map fun x => (x.1, x.2.toNat)) : k = k' := by
  obtain ⟨u, hu, rfl⟩ := (lookup_iff h).1 hk
  obtain ⟨u', hu', rfl⟩ := (lookup_iff h).1 hk'
  cases hu.symm.trans hu'
  rfl

/-- A text is one number at most. -/
theorem number_value_unique {units : List (Text × BitVec 64)} (h : (units.map Prod.fst).Nodup)
    (ha : ∀ x ∈ units, ∀ c ∈ x.1, isAlpha c = true) {t : Text} {n n' : Nat} (hn : Number (units.map fun x => (x.1, x.2.toNat)) t n)
    (hn' : Number (units.map fun x => (x.1, x.2.toNat)) t n') : n = n' := by
  obtain ⟨ds, u, k, rfl, hds, -, hk, rfl, -⟩ := hn
  obtain ⟨ds', u', k', ht, hds', -, hk', rfl, -⟩ := hn'
  have halpha {v : Text} {j : Nat} (hv : (v, j) ∈ units.map fun x => (x.1, x.2.toNat)) : ∀ c ∈ v, isAlpha c = true := by
    obtain ⟨x, hx, hxv⟩ := List.mem_map.1 hv
    cases hxv
    exact ha x hx
  obtain ⟨rfl, rfl⟩ := number_unique ht hds (halpha hk) hds' (halpha hk')
  rw [unit_unique h hk hk']

/-- A number is no name. -/
theorem number_not_name {units : List (Text × Nat)} {t : Text} {n : Nat} (h : Number units t n) : ¬Name t := by
  obtain ⟨ds, u, k, rfl, hds, -⟩ := h
  exact digits_ne_name hds

/-- A number of the grammar fits in a word. -/
theorem number_lit {units : List (Text × Nat)} {t : Text} {n : Nat} (h : Number units t n) : (BitVec.ofNat 64 n).toNat = n := by
  obtain ⟨ds, u, k, -, -, -, -, -, hlt⟩ := h
  rw [BitVec.toNat_ofNat, Nat.mod_eq_of_lt hlt]

/-- What an operand is worth: its value, if it has a slot, and its literal. -/
def Worth (c : Ctx) (k : ValueKind) (o : Operand) (n : Nat) : Prop :=
  match o.var with
  | none => n = o.lit.toNat
  | some i => ∃ v : Value, c.vals[i]? = some v ∧ v.kind = k ∧ n = v.num.toNat + o.lit.toNat

/-- An operand is worth one number. -/
theorem Worth.unique {k : ValueKind} {o : Operand} {n n' : Nat} (h : Worth c k o n) (h' : Worth c k o n') : n = n' := by
  obtain ⟨var, lit⟩ := o
  cases var with
  | none =>
    have h : n = lit.toNat := h
    have h' : n' = lit.toNat := h'
    omega
  | some i =>
    obtain ⟨v, hv, -, rfl⟩ := h
    obtain ⟨v', hv', -, rfl⟩ := h'
    cases hv.symm.trans hv'
    rfl

/-- The names of the parser's slots are those of the program. -/
structure Extends (p : Program) (P : Parser) : Prop where
  vars : P.p.vars <+: p.vars
  nodup : p.vars.Nodup

/-- A slot of the parser is one of the program. -/
theorem Extends.slot (h : Extends p P) {name : Text} {i : Nat} (hi : P.p.vars[i]? = some name) : p.vars[i]? = some name := by
  obtain ⟨hlt, -⟩ := List.getElem?_eq_some_iff.1 hi
  obtain ⟨more, hmore⟩ := h.vars
  rw [← hmore, List.getElem?_append_left hlt, hi]

/-- The value of a variable is that of its slot. -/
theorem valueOf_iff (h : Extends p P) {name : Text} {k : ValueKind} {i : Nat} (hv : Variable P name k i) {v : Value} :
    ValueOf p c name k v ↔ c.vals[i]? = some v ∧ v.kind = k := by
  obtain ⟨hn, -, hi⟩ := hv
  have hi := h.slot hi
  constructor
  · intro hval
    obtain ⟨-, j, hj, hval, hkind⟩ := hval
    obtain ⟨hlt, hget⟩ := List.getElem?_eq_some_iff.1 hi
    obtain ⟨hlt', hget'⟩ := List.getElem?_eq_some_iff.1 hj
    cases h.nodup.getElem_inj_iff.1 (hget.trans hget'.symm)
    exact ⟨hval, hkind⟩
  · intro hval
    exact ⟨hn, i, hi, hval⟩

variable {call : Call} {a : Text} {o : Operand}

/-- A size that is a name has no number of its own. -/
theorem size_lit (hr : ReadFor P call .size a o) (hvar : o.var ≠ none) : o.lit = 0 := by
  obtain ⟨wh, r, l, x, -, ⟨-, hfits⟩, rfl⟩ := hr
  rcases hfits with ⟨-, -, n, -, ho⟩ | ⟨-, -, -, i, -, ho⟩
  · rw [ho] at hvar
    exact absurd rfl hvar
  · rw [ho]

/-- Only `map` has an offset. -/
theorem addr_lit (hr : ReadFor P call .addr a o) (hcall : call ≠ .map) : o.lit = 0 := by
  obtain ⟨wh, r, l, x, hr, hfits, rfl⟩ := hr
  obtain ⟨-, name, i, -, hread⟩ := addr_read hr hfits
  rcases hread with ⟨-, ho⟩ | ⟨hmap, -⟩
  · rw [ho]
  · exact absurd hmap hcall

/-- A size denotes what its operand is worth. -/
theorem denotes_size (h : Extends p P) (hr : ReadFor P call .size a o) {n : Nat} :
    Grammar.Denotes p c a .size n ↔ Worth c .size o n := by
  obtain ⟨wh, r, l, x, hr, hfits, rfl⟩ := hr
  obtain ⟨harg, -⟩ := (argument_size (c := call)).1 ⟨r, hr, hfits⟩
  rcases harg with ⟨m, hm, ho⟩ | ⟨i, hv, ho⟩
  · rw [ho]
    show Number sizeUnits a n ∨ _ ↔ n = (BitVec.ofNat 64 m).toNat
    rw [number_lit hm]
    constructor
    · intro hn
      rcases hn with hn | ⟨v, ⟨hname, -⟩, -⟩
      · exact number_value_unique sizes_nodup sizes_alpha hn hm
      · exact absurd hname (number_not_name hm)
    · intro hn
      exact .inl (hn ▸ hm)
  · rw [ho]
    constructor
    · intro hn
      rcases hn with hn | ⟨v, hval, rfl⟩
      · exact absurd hv.1 (number_not_name hn)
      · obtain ⟨hval, hkind⟩ := (valueOf_iff h hv).1 hval
        exact ⟨v, hval, hkind, rfl⟩
    · intro hn
      obtain ⟨v, hval, hkind, rfl⟩ := hn
      exact .inr ⟨v, (valueOf_iff h hv).2 ⟨hval, hkind⟩, rfl⟩

/-- A time denotes its number. -/
theorem denotes_time (hr : ReadFor P call .time a o) {n : Nat} : Grammar.Denotes p c a .time n ↔ n = o.lit.toNat := by
  obtain ⟨wh, r, l, x, hr, hfits, rfl⟩ := hr
  obtain ⟨⟨m, hm, ho⟩, -⟩ := (argument_time (c := call)).1 ⟨r, hr, hfits⟩
  rw [ho]
  show Number timeUnits a n ↔ n = (BitVec.ofNat 64 m).toNat
  rw [number_lit hm]
  exact ⟨fun hn => number_value_unique times_nodup times_alpha hn hm, fun hn => hn ▸ hm⟩

/-- The parts of a sum are determined. -/
theorem sum_parts {name w w' num name' v v' num' : Text} {n n' : Nat} (h : name ++ w ++ '+' :: (w' ++ num) = name' ++ v ++ '+' :: (v' ++ num'))
    (hname : Name name) (hw : ∀ y ∈ w, isSpace y = true) (hw' : ∀ y ∈ w', isSpace y = true) (hnum : Number sizeUnits num n)
    (hname' : Name name') (hv : ∀ y ∈ v, isSpace y = true) (hv' : ∀ y ∈ v', isSpace y = true) (hnum' : Number sizeUnits num' n') :
    name = name' ∧ n = n' := by
  have hplus : isWord '+' = false ∧ isSpace '+' = false := by decide
  have hstop {t : Text} {k : Nat} (hk : Number sizeUnits t k) : Stops isSpace t := by
    obtain ⟨ds, u, -, rfl, hds, -⟩ := hk
    exact stops_digits (fun _ => isSpace_of_isDigit) hds
  rw [List.append_assoc, List.append_assoc] at h
  obtain ⟨rfl, -, hrest⟩ := sign_unique h (isWord_of_name hname) hw hplus (isWord_of_name hname') hv hplus
  obtain ⟨-, rfl⟩ := span_unique hrest hw' (hstop hnum) hv' (hstop hnum')
  exact ⟨rfl, number_value_unique sizes_nodup sizes_alpha hnum hnum'⟩

/-- A name with an offset is no name. -/
theorem sum_ne_name {name w r : Text} : ¬Name (name ++ w ++ '+' :: r) := by
  intro h
  exact absurd (isWord_of_name h '+' (by simp)) (by decide)

/-- An address is that of a slot, and its offset is the literal. -/
theorem sum_iff (h : Extends p P) (hr : ReadFor P call .addr a o) : ∃ i, o.var = some i ∧ ∀ r off : Nat,
    Grammar.Sum p c a r off ↔ (∃ v : Value, c.vals[i]? = some v ∧ v.kind = .addr ∧ r = v.num.toNat) ∧ off = o.lit.toNat := by
  obtain ⟨wh, q, l, x, hr, hfits, rfl⟩ := hr
  obtain ⟨-, name, i, hv, hread⟩ := addr_read hr hfits
  rcases hread with ⟨rfl, ho⟩ | ⟨-, w, w', num, n, rfl, hw, hw', hnum, ho⟩
  · rw [ho]
    refine ⟨i, rfl, fun r off => ⟨fun hsum => ?_, fun hsum => ?_⟩⟩
    · obtain ⟨name, v, hval, rfl, hform⟩ := hsum
      rcases hform with ⟨rfl, rfl⟩ | ⟨u, u', num, rfl, -⟩
      · obtain ⟨hval, hkind⟩ := (valueOf_iff h hv).1 hval
        exact ⟨⟨v, hval, hkind, rfl⟩, rfl⟩
      · exact absurd hv.1 sum_ne_name
    · obtain ⟨⟨v, hval, hkind, rfl⟩, rfl⟩ := hsum
      exact ⟨a, v, (valueOf_iff h hv).2 ⟨hval, hkind⟩, rfl, .inl ⟨rfl, rfl⟩⟩
  · rw [ho]
    refine ⟨i, rfl, fun r off => ?_⟩
    show _ ↔ _ ∧ off = (BitVec.ofNat 64 n).toNat
    rw [number_lit hnum]
    constructor
    · intro hsum
      obtain ⟨name', v, hval, rfl, hform⟩ := hsum
      rcases hform with ⟨ht, -⟩ | ⟨u, u', num', ht, hu, hu', hnum'⟩
      · exact absurd (ht ▸ hval.1) sum_ne_name
      · obtain ⟨rfl, rfl⟩ := sum_parts ht hv.1 hw hw' hnum hval.1 hu hu' hnum'
        obtain ⟨hval, hkind⟩ := (valueOf_iff h hv).1 hval
        exact ⟨⟨v, hval, hkind, rfl⟩, rfl⟩
    · intro hsum
      obtain ⟨⟨v, hval, hkind, rfl⟩, rfl⟩ := hsum
      exact ⟨name, v, (valueOf_iff h hv).2 ⟨hval, hkind⟩, rfl, .inr ⟨w, w', num, rfl, hw, hw', hnum⟩⟩

/-- An address denotes what its operand is worth. -/
theorem denotes_addr (h : Extends p P) (hr : ReadFor P call .addr a o) {n : Nat} :
    Grammar.Denotes p c a .addr n ↔ Worth c .addr o n := by
  obtain ⟨i, hi, hsum⟩ := sum_iff (c := c) h hr
  unfold Worth
  rw [hi]
  constructor
  · intro hn
    obtain ⟨r, off, hn, rfl⟩ := hn
    obtain ⟨⟨v, hval, hkind, rfl⟩, rfl⟩ := (hsum r off).1 hn
    exact ⟨v, hval, hkind, rfl⟩
  · intro hn
    obtain ⟨v, hval, hkind, rfl⟩ := hn
    exact ⟨_, _, (hsum _ _).2 ⟨⟨v, hval, hkind, rfl⟩, rfl⟩, rfl⟩

/-! ## What a call of the manager acts on -/

section Calls

open Manager ManagerAux Throwing

variable {β : Type} {fails late : Bool} {x x' : Managed β} {t : ChunkToken}

/-- What is proved of every return of a call holds of a step that returned. -/
theorem of_step {call : ManagerCall} {v : call.Result} {Q : call.Result → Manager → Watched β → Prop}
    (hwp : wp (Cuda.watched β fails) call.program Q (fun _ _ _ => True) x.m { d := x.d }) (h : x.Step fails call (.ok v) x' late) :
    ∃ w : Watched β, w.d = x'.d ∧ Q v x'.m w := by
  obtain ⟨w, hruns, hd, -⟩ := h
  exact ⟨w, hd, hruns.of_wp hwp⟩

/-- `reserve` acts on the size rounded up, which is not zero. -/
theorem reserve_acted {n : Size} {va : Ptr} (h : x.Step fails (.reserve n) (.ok va) x' late) :
    x.m.roundUp n ≠ 0 ∧ x'.d.reservations[va]? = some (x.m.roundUp n) := by
  have hwp : wp (Cuda.watched β fails) (reserve n) (fun va _ w => x.m.roundUp n ≠ 0 ∧ w.d.reservations[va]? = some (x.m.roundUp n))
      (fun _ _ _ => True) x.m { d := x.d } := by
    unfold reserve
    rw [wp_bind, wp_get, wp_bind]
    refine cu_wp (fun v y hacc hv => ?_) fun _ _ => trivial
    rw [wp_bind, wp_modify, wp_pure]
    refine ⟨hacc, ?_⟩
    show (x.d.reservations.insert v (x.m.roundUp n))[v]? = _
    rw [OrdMap.getElem?_insert, if_pos rfl]
  obtain ⟨w, hd, hr⟩ := of_step hwp h
  rwa [hd] at hr

theorem create_acted {n : Size} {l : Loc} (h : x.Step fails (.create n l) (.ok t) x' late) : x.m.roundUp n ≠ 0 ∧
    ∃ p : Phys β, (x'.m.chunks[t.id]?.bind fun c => x'.d.handles[c.handle]?) = some p ∧ p.size = x.m.roundUp n := by
  have hwp : wp (Cuda.watched β fails) (create n l) (fun t m w => x.m.roundUp n ≠ 0 ∧
      ∃ p : Phys β, (m.chunks[t.id]?.bind fun c => w.d.handles[c.handle]?) = some p ∧ p.size = x.m.roundUp n)
      (fun _ _ _ => True) x.m { d := x.d } := by
    unfold create
    rw [wp_bind]
    refine require_wp (fun _ => ?_) fun _ => trivial
    rw [wp_bind, wp_get, wp_bind]
    refine cu_wp (fun v y hacc hv => ?_) fun _ _ => trivial
    rw [wp_bind, wp_modify, wp_bind, wp_modify, wp_pure]
    refine ⟨hacc, ⟨x.m.roundUp n, (x.m.prop l).loc, y⟩, ?_, rfl⟩
    show ((x.m.chunks.insert x.m.nextId ⟨x.m.nextId, x.m.roundUp n, l, v, 0⟩)[x.m.nextId]?.bind fun c =>
      (x.d.handles.insert v ⟨x.m.roundUp n, (x.m.prop l).loc, y⟩)[c.handle]?) = _
    rw [OrdMap.getElem?_insert, if_pos rfl, Option.bind_some, OrdMap.getElem?_insert, if_pos rfl]
  obtain ⟨w, hd, hr⟩ := of_step hwp h
  rwa [hd] at hr

/-- A token that is good has a chunk. -/
theorem chunkOf_good {m : Manager} {w : Watched β} {what : String} {Q : ManagedChunk → Manager → Watched β → Prop}
    (hok : ∀ c : ManagedChunk, t.valid = true → t.owner = m.serial → m.chunks[t.id]? = some c → Q c m w) :
    wp (Cuda.watched β fails) (chunkOf t what) Q (fun _ _ _ => True) m w := by
  unfold chunkOf
  rw [wp_bind]
  refine require_wp (fun hv => ?_) fun _ => trivial
  rw [wp_bind, wp_get, wp_bind]
  refine require_wp (fun ht => ?_) fun _ => trivial
  cases hc : m.chunks[t.id]? with
  | none => exact trivial
  | some c => exact hok c hv ht hc

/-- `map` returns where the chunk could be mapped, and it is mapped there. -/
theorem map_acted {va v : Ptr} (h : x.Step fails (.map t va) (.ok v) x' late) :
    x.MapsAt t va ∧ ∃ c : ManagedChunk, x'.m.chunks[t.id]? = some c ∧ c.va = va ∧ x'.d.mappings[va]?.isSome = true := by
  have hwp : wp (Cuda.watched β fails) (map t va) (fun _ m w => x.MapsAt t va ∧
      ∃ c : ManagedChunk, m.chunks[t.id]? = some c ∧ c.va = va ∧ w.d.mappings[va]?.isSome = true) (fun _ _ _ => True) x.m { d := x.d } := by
    unfold map
    rw [wp_bind]
    refine chunkOf_good fun c hv ht hc => ?_
    rw [wp_bind]
    refine require_wp (fun hm => ?_) fun _ => trivial
    rw [wp_bind, wp_get, wp_bind]
    refine require_wp (fun hal => ?_) fun _ => trivial
    rw [wp_bind]
    refine require_wp (fun hin => ?_) fun _ => trivial
    refine mapGrant_wp (fun hacc => ?_) (fun _ _ => trivial) fun _ _ => trivial
    rw [wp_bind, wp_modify, wp_pure]
    refine ⟨⟨hv, ht, c, hc, hm, hal, hin, hacc⟩, { c with va }, ?_, rfl, ?_⟩
    · show (x.m.chunks.insert t.id { c with va })[t.id]? = _
      rw [OrdMap.getElem?_insert, if_pos rfl]
    · show (x.d.mappings.insert va _)[va]?.isSome = true
      rw [OrdMap.getElem?_insert, if_pos rfl]
      rfl
  obtain ⟨w, hd, hr⟩ := of_step hwp h
  rwa [hd] at hr

/-- `map` acts on its address. -/
theorem acted_map {va v : Ptr} (h : x.Step fails (.map t va) (.ok v) x' late) : Acting.acted x' (.map t va) v = [(va.toNat : Int)] := by
  obtain ⟨-, c, hc, hva, hmp⟩ := map_acted h
  unfold Acting.acted
  simp only [hc, hva, hmp, if_true]

/-- A size that is not rounded to nothing is rounded up. -/
theorem roundUp_exact {m : Manager} {n : Size} (h : m.roundUp n ≠ 0) :
    (m.roundUp n).toNat = n.toNat ⌈/⌉ m.gran.toNat * m.gran.toNat := by
  unfold Manager.roundUp at h ⊢
  have hg : m.gran ≠ 0 := by
    intro h0
    rw [h0] at h
    exact h (BitVec.mul_zero)
  by_cases hsum : n.toNat + m.gran.toNat ≤ 2 ^ 64
  · exact Words.toNat_roundUp hg hsum
  · exact absurd (Words.roundUp_wrapped hg (by omega)) h

end Calls

/-! ## What a statement acts on -/

section Statements

open Ctx Throwing

variable {β : Type} {fails : Bool} {x : Managed β} {w : Acting β}

/-- A value that is read has its kind. -/
theorem value_good {var : Option Nat} {k : ValueKind} {Q : Value → Ctx → Acting β → Prop}
    (hok : ∀ (i : Nat) (v : Value), var = some i → c.vals[i]? = some v → v.kind = k → Q v c w) :
    wp (Acting.world β fails) (value var k) Q (fun _ _ _ => True) c w := by
  unfold value
  rw [wp_bind, wp_get]
  cases hv : var.bind fun i => c.vals[i]? with
  | none => exact ⟨trivial, fun _ _ h => h.elim⟩
  | some v =>
    obtain ⟨i, hi, hval⟩ := Option.bind_eq_some_iff.1 hv
    refine wp_ite.2 ⟨fun _ => trivial, fun hk => ?_⟩
    exact hok i v hi hval (not_not.1 hk)

/-- A size that is read is worth its operand. -/
theorem size_good {o : Operand} {Q : BitVec 64 → Ctx → Acting β → Prop} (hlit : o.var ≠ none → o.lit = 0)
    (hok : ∀ n : BitVec 64, Worth c .size o n.toNat → Q n c w) : wp (Acting.world β fails) (size o) Q (fun _ _ _ => True) c w := by
  obtain ⟨var, lit⟩ := o
  cases var with
  | none =>
    refine hok (0 + lit) ?_
    rw [zero_add]
    rfl
  | some i =>
    have hlit : lit = 0 := hlit nofun
    show wp _ (value (some i) .size >>= fun v => pure (v.num + lit)) _ _ _ _
    rw [wp_bind]
    refine value_good fun j v hj hv hk => hok (v.num + lit) ?_
    cases hj
    rw [hlit, add_zero]
    exact ⟨v, hv, hk, rfl⟩

/-- An address that is read is the sum of its slot and its offset, as words add up. -/
theorem addr_good {o : Operand} {Q : BitVec 64 → Ctx → Acting β → Prop}
    (hok : ∀ (i : Nat) (v : Value), o.var = some i → c.vals[i]? = some v → v.kind = .addr → Q (v.num + o.lit) c w) :
    wp (Acting.world β fails) (addr o) Q (fun _ _ _ => True) c w := by
  unfold addr
  rw [wp_bind]
  exact value_good hok

/-- A chunk that is read is in a slot of that kind. -/
theorem chunk_good {o : Operand} {Q : ChunkToken → Ctx → Acting β → Prop}
    (hok : ∀ (i : Nat) (u : Value), o.var = some i → c.vals[i]? = some u → u.kind = .chunk → Q u.tok c w) :
    wp (Acting.world β fails) (chunk o) Q (fun _ _ _ => True) c w := by
  unfold chunk
  rw [wp_bind]
  exact value_good hok

/-- A call of the manager is a step of it. -/
theorem ask_good {call : ManagerCall} {Q : call.Result → Ctx → Acting β → Prop}
    (hok : ∀ (v : call.Result) (x' : Managed β) (late : Bool), w.x.Step fails call (.ok v) x' late →
      Q v c ⟨x', w.acts ++ Acting.acted x' call v⟩) : wp (Acting.world β fails) (ask call) Q (fun _ _ _ => True) c w := by
  unfold ask
  rw [wp_bind]
  refine ⟨trivial, fun r w' h => ?_⟩
  obtain ⟨⟨late, hstep⟩, hacts⟩ := h
  cases r with
  | error f => exact trivial
  | ok v =>
    have hw : w' = ⟨w'.x, w.acts ++ Acting.acted w'.x call v⟩ := by
      rw [← show w'.acts = _ from hacts]
    rw [hw]
    exact hok v w'.x late hstep

/-- Every return of the call has acted on this number. -/
def ActsOn (fails : Bool) (s : Stmt) (call : Call) (c : Ctx) (x : Managed β) (Q : Nat → Prop) : Prop :=
  wp (Acting.world β fails) (call.run s) (fun _ _ w => ∃ n, Q n ∧ w.acts = [(n : Int)]) (fun _ _ _ => True) c { x }

/-- `reserve` in a script acts on the worth of its size, in whole granules. -/
theorem acts_reserve (hlit : s.a.var ≠ none → s.a.lit = 0) :
    ActsOn fails s .reserve c x fun k => ∃ n, Worth c .size s.a n ∧ k = n ⌈/⌉ x.m.gran.toNat * x.m.gran.toNat := by
  unfold ActsOn Call.run
  rw [wp_bind]
  refine size_good hlit fun n hn => ?_
  rw [wp_bind]
  refine ask_good fun va x' late h => ?_
  obtain ⟨hne, hr⟩ := reserve_acted h
  refine ⟨_, ⟨_, hn, (roundUp_exact hne)⟩, ?_⟩
  simp only [Acting.acted, hr, List.nil_append]

theorem acts_create (hlit : s.a.var ≠ none → s.a.lit = 0) :
    ActsOn fails s .create c x fun k => ∃ n, Worth c .size s.a n ∧ k = n ⌈/⌉ x.m.gran.toNat * x.m.gran.toNat := by
  unfold ActsOn Call.run
  rw [wp_bind]
  refine size_good hlit fun n hn => ?_
  rw [wp_bind]
  refine ask_good fun t x' late h => ?_
  obtain ⟨hne, p, hp, hsize⟩ := create_acted h
  refine ⟨_, ⟨_, hn, (roundUp_exact hne)⟩, ?_⟩
  simp only [Acting.acted, hp, ← hsize, List.nil_append]

/-- The operands of `map`: a chunk and an address. -/
def MapOperands (c : Ctx) (s : Stmt) (u v : Value) : Prop :=
  ∃ i j : Nat, s.a.var = some i ∧ s.b.var = some j ∧ c.vals[i]? = some u ∧ c.vals[j]? = some v ∧ u.kind = .chunk ∧ v.kind = .addr

/-- `map` in a script acts on the sum of its operands, as words add up. -/
theorem acts_map : ActsOn fails s .map c x fun k => ∃ u v, MapOperands c s u v ∧ x.MapsAt u.tok (v.num + s.b.lit) ∧
    k = (v.num + s.b.lit).toNat := by
  unfold ActsOn Call.run
  rw [wp_bind]
  refine chunk_good fun i u hi hu hku => ?_
  rw [wp_bind]
  refine addr_good fun j v hj hv hkv => ?_
  rw [wp_bind]
  refine ask_good fun va x' late h => ?_
  exact ⟨_, ⟨u, v, ⟨i, j, hi, hj, hu, hv, hku, hkv⟩, (map_acted h).1, rfl⟩, acted_map h⟩

theorem acts_free : ActsOn fails s .free c x fun k => ∃ (i : Nat) (v : Value), s.a.var = some i ∧ c.vals[i]? = some v ∧ v.kind = .addr ∧
    k = (v.num + s.a.lit).toNat := by
  unfold ActsOn Call.run
  rw [wp_bind]
  refine addr_good fun i v hi hv hk => ?_
  rw [wp_bind]
  exact ask_good fun n x' late h => ⟨_, ⟨i, v, hi, hv, hk, rfl⟩, rfl⟩

/-- `sleep` acts on its number. -/
theorem acts_sleep (hlit : s.a.lit.toNat < 2 ^ 63) : ActsOn fails s .sleep c x (· = s.a.lit.toNat) := by
  unfold ActsOn Call.run
  rw [wp_bind]
  refine ⟨trivial, fun _ w' h => ?_⟩
  refine ⟨_, rfl, ?_⟩
  rw [show w' = _ from h, BitVec.toInt_eq_toNat_of_lt (by omega)]
  rfl

/-! ## Returns that happen -/

/-- A value of the kind is read. -/
theorem value_runs {i : Nat} {k : ValueKind} {v : Value} (hv : c.vals[i]? = some v) (hk : v.kind = k) :
    Prog.Runs (Acting.world β fails) ((value (some i) k).run c) w (.ok v, c) w := by
  refine runs_seq runs_get ?_
  simp only [Option.bind_some, hv]
  rw [if_neg (not_not.2 hk)]
  exact runs_pure

/-- A step of the manager is a call of it. -/
theorem ask_runs {call : ManagerCall} {v : call.Result} {x' : Managed β} {late : Bool} (h : w.x.Step fails call (.ok v) x' late) :
    Prog.Runs (Acting.world β fails) ((ask call).run c) w (.ok v, c) ⟨x', w.acts ++ Acting.acted x' call v⟩ := by
  have hanswer : (Acting.world β fails).answers (.manager call) w (.ok v) ⟨x', w.acts ++ Acting.acted x' call v⟩ := ⟨⟨late, h⟩, rfl⟩
  exact runs_seq (runs_call hanswer) runs_pure

/-- Where the manager maps the chunk, the statement returns; what it acted on is what is left of the sum. -/
theorem map_returns [Inhabited β] {u v : Value} (ho : MapOperands c s u v) (h : x.MapsAt u.tok (v.num + s.b.lit)) :
    ∃ (r : Value) (c' : Ctx) (w : Acting β), Prog.Runs (Acting.world β fails) ((Call.run s .map).run c) { x } (.ok r, c') w ∧
      w.acts = [((v.num + s.b.lit).toNat : Int)] := by
  obtain ⟨i, j, hi, hj, hu, hv, hku, hkv⟩ := ho
  obtain ⟨-, -, ch, hch, -⟩ := id h
  have hstep := @ManagerAux.map_step β fails x u.tok ch (v.num + s.b.lit) default hch h
  have hchunk : Prog.Runs (Acting.world β fails) ((chunk s.a).run c) { x } (.ok u.tok, c) { x } := by
    unfold chunk
    rw [hi]
    exact runs_seq (value_runs hu hku) runs_pure
  have haddr : Prog.Runs (Acting.world β fails) ((addr s.b).run c) { x } (.ok (v.num + s.b.lit), c) { x } := by
    unfold addr
    rw [hj]
    exact runs_seq (value_runs hv hkv) runs_pure
  refine ⟨_, _, _, runs_seq hchunk (runs_seq haddr (runs_seq (ask_runs hstep) runs_pure)), ?_⟩
  exact acted_map hstep

/-- `sleep` returns. -/
theorem sleep_returns : ∃ (r : Value) (c' : Ctx) (w : Acting β),
    Prog.Runs (Acting.world β fails) ((Call.run s .sleep).run c) { x } (.ok r, c') w ∧ w.acts = [s.a.lit.toInt] := by
  have hanswer : (Acting.world β fails).answers (.sleep s.a.lit.toInt) { x } () ⟨x, [s.a.lit.toInt]⟩ := rfl
  exact ⟨_, _, _, runs_seq (runs_call hanswer) runs_pure, rfl⟩

end Statements

end NumbersAux

end Vmem
