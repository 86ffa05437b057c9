import Vmem.Lemmas.Numbers
import Vmem.Theorems.Manager

/-!
# No number changes on its way

The number that a primitive acts on is the one that the source denotes, or the line fails; except where the sum of `map` wraps around to an
address that can be mapped, and where the time of `sleep` is negative as a signed number.
-/

namespace Vmem

namespace NumbersAux

open Grammar ScriptAux

variable {β : Type} {fails : Bool} {P : Parser} {p : Program} {c : Ctx} {s : Stmt} {x : Managed β}

/-- What `Exact` asks of a number that was acted on. -/
def Meant (p : Program) (c : Ctx) (x : Managed β) (s : Stmt) (k : Nat) : Prop :=
  (∃ n, s.Denotes p c n ∧ k = s.call.meant x.m.gran.toNat n) ∧
  (s.call = .map → ∃ (t : Text) (r off : Nat), s.argTexts[1]? = some t ∧ Grammar.Sum p c t r off ∧ r ≤ k ∧
    ∀ (base : Ptr) (len : Size), x.m.reservations[base]? = some len → base.toNat ≤ k → k < base.toNat + len.toNat →
      base.toNat ≤ r + off ∧ r + off < base.toNat + len.toNat)

/-- A statement is exact if what it acts on is what its arguments mean. -/
theorem exact_of_acts {Q : Nat → Prop} (hacts : ActsOn fails s s.call c x Q) (h : ∀ k, Q k → Meant p c x s k) : s.Exact fails p c x := by
  intro v c' w hruns
  obtain ⟨k, hk, hw⟩ := hruns.of_wp hacts
  obtain ⟨⟨n, hn, hmeant⟩, hmap⟩ := h k hk
  refine ⟨fun _ => ⟨n, hn, by rw [hw, hmeant]⟩, fun hcall => ?_⟩
  obtain ⟨t, r, off, ht, hsum, hle, hin⟩ := hmap hcall
  exact ⟨t, r, off, k, ht, hsum, hw, hle, hin⟩

/-- So is one that takes no numbers. -/
theorem exact_of_plain (hnum : s.call.numeric = false) (hmap : s.call ≠ .map) : s.Exact fails p c x :=
  fun _ _ _ _ => ⟨fun h => absurd (h.symm.trans hnum) nofun, fun h => absurd h hmap⟩

/-- A number that is rounded up, or taken as it is, is what the only argument with a number means. -/
theorem meant_of_denotes {i : Nat} {sh : Shape} {a : Text} {n k : Nat} (hmap : s.call ≠ .map) (hi : s.call.args[i]? = some sh)
    (ha : s.argTexts[i]? = some a) (hn : Grammar.Denotes p c a sh n) (hk : k = s.call.meant x.m.gran.toNat n) : Meant p c x s k :=
  ⟨⟨n, ⟨i, sh, a, hi, ha, hn⟩, hk⟩, fun h => absurd h hmap⟩

/-- An address is worth its slot and its offset. -/
theorem worth_addr {o : Operand} {i : Nat} {v : Value} (hi : o.var = some i) (hv : c.vals[i]? = some v) (hk : v.kind = .addr) :
    Worth c .addr o (v.num.toNat + o.lit.toNat) := by
  unfold Worth
  rw [hi]
  exact ⟨v, hv, hk, rfl⟩

/-- Numbers that stay in their types are acted on as they are meant. -/
theorem exact_of_fit (hp : Extends p P) (hread : Read P s) (h : s.NumbersFit c x) : s.Exact fails p c x := by
  cases hcall : s.call with
  | reserve =>
    obtain ⟨a, ha, hr⟩ := hread 0 .size (by rw [hcall]; rfl)
    refine exact_of_acts (by rw [hcall]; exact acts_reserve (size_lit hr)) fun k hk => ?_
    obtain ⟨n, hn, hk⟩ := hk
    exact meant_of_denotes (by rw [hcall]; exact nofun) (by rw [hcall]; rfl) ha ((denotes_size hp hr).2 hn) (by rw [hcall]; exact hk)
  | create =>
    obtain ⟨a, ha, hr⟩ := hread 0 .size (by rw [hcall]; rfl)
    refine exact_of_acts (by rw [hcall]; exact acts_create (size_lit hr)) fun k hk => ?_
    obtain ⟨n, hn, hk⟩ := hk
    exact meant_of_denotes (by rw [hcall]; exact nofun) (by rw [hcall]; rfl) ha ((denotes_size hp hr).2 hn) (by rw [hcall]; exact hk)
  | map =>
    obtain ⟨a, ha, hr⟩ := hread 1 .addr (by rw [hcall]; rfl)
    refine exact_of_acts (by rw [hcall]; exact acts_map) fun k hk => ?_
    obtain ⟨u, v, ⟨i, j, hi, hj, hu, hv, hku, hkv⟩, hmaps, rfl⟩ := hk
    have hlt := (h.2 hcall i j u v hi hj hu hv hku hkv).resolve_right (not_not.2 hmaps)
    have hsum : (v.num + s.b.lit).toNat = v.num.toNat + s.b.lit.toNat := by rw [BitVec.toNat_add, Nat.mod_eq_of_lt hlt]
    obtain ⟨j', hj', hparts⟩ := sum_iff (c := c) hp hr
    cases hj.symm.trans hj'
    rw [hsum]
    refine ⟨⟨_, ⟨1, .addr, a, by rw [hcall]; rfl, ha, (denotes_addr hp hr).2 (worth_addr hj hv hkv)⟩, by rw [hcall]; rfl⟩, fun _ => ?_⟩
    exact ⟨a, _, _, ha, (hparts _ _).2 ⟨⟨v, hv, hkv, rfl⟩, rfl⟩, Nat.le_add_right _ _, fun base len _ hle hlt => ⟨hle, hlt⟩⟩
  | free =>
    obtain ⟨a, ha, hr⟩ := hread 0 .addr (by rw [hcall]; rfl)
    have hlit : s.a.lit = 0 := addr_lit hr (by rw [hcall]; exact nofun)
    refine exact_of_acts (by rw [hcall]; exact acts_free) fun k hk => ?_
    obtain ⟨i, v, hi, hv, hkv, rfl⟩ := hk
    refine meant_of_denotes (by rw [hcall]; exact nofun) (by rw [hcall]; rfl) ha ((denotes_addr hp hr).2 (worth_addr hi hv hkv)) ?_
    rw [hcall]
    show (v.num + s.a.lit).toNat = v.num.toNat + s.a.lit.toNat
    rw [hlit, add_zero]
    rfl
  | sleep =>
    obtain ⟨a, ha, hr⟩ := hread 0 .time (by rw [hcall]; rfl)
    refine exact_of_acts (by rw [hcall]; exact acts_sleep (h.1 hcall)) fun k hk => ?_
    exact meant_of_denotes (by rw [hcall]; exact nofun) (by rw [hcall]; rfl) ha ((denotes_time hr).2 rfl) (by rw [hcall]; exact hk)
  | _ => exact exact_of_plain (by rw [hcall]; rfl) (by rw [hcall]; exact nofun)

/-- A sum that wraps around to an address that can be mapped is acted on there; and a time that is too long is acted on as a negative one. -/
theorem fit_of_exact [Inhabited β] (hp : Extends p P) (hread : Read P s) (h : s.Exact fails p c x) : s.NumbersFit c x := by
  refine ⟨fun hcall => ?_, fun hcall i j u v hi hj hu hv hku hkv => ?_⟩
  · obtain ⟨r, c', w, hruns, hacts⟩ : ∃ (r : Value) (c' : Ctx) (w : Acting β),
        Prog.Runs (Acting.world β fails) ((Call.run s .sleep).run c) { x } (.ok r, c') w ∧ w.acts = [s.a.lit.toInt] := sleep_returns
    rw [← hcall] at hruns
    obtain ⟨n, ⟨i, sh, a, hi, ha, hn⟩, hw⟩ := (h r c' w hruns).1 (by rw [hcall]; rfl)
    rw [hcall] at hi hw
    cases i with
    | zero =>
      cases hi
      obtain ⟨a', ha', hr⟩ := hread 0 .time (by rw [hcall]; rfl)
      cases ha.symm.trans ha'
      have hn : n = s.a.lit.toNat := (denotes_time hr).1 hn
      have heq : s.a.lit.toInt = (n : Int) := (List.cons.inj (hacts.symm.trans hw)).1
      have hmsb := BitVec.toInt_eq_toNat_cond s.a.lit
      split at hmsb
      · omega
      · omega
    | succ i => exact nomatch hi
  · by_contra hno
    obtain ⟨hge, hmaps⟩ := not_or.1 hno
    have ho : MapOperands c s u v := ⟨i, j, hi, hj, hu, hv, hku, hkv⟩
    obtain ⟨r, c', w, hruns, hacts⟩ := @map_returns c s β fails x _ u v ho (not_not.1 hmaps)
    rw [← hcall] at hruns
    obtain ⟨n, ⟨k, sh, a, hk, ha, hn⟩, hw⟩ := (h r c' w hruns).1 (by rw [hcall]; rfl)
    rw [hcall] at hk hw
    match k with
    | 0 =>
      cases hk
      exact hn
    | 1 =>
      cases hk
      obtain ⟨a', ha', hr⟩ := hread 1 .addr (by rw [hcall]; rfl)
      cases ha.symm.trans ha'
      have hn : n = v.num.toNat + s.b.lit.toNat := ((denotes_addr hp hr).1 hn).unique (worth_addr hj hv hkv)
      have heq : ((v.num + s.b.lit).toNat : Int) = (n : Int) := (List.cons.inj (hacts.symm.trans hw)).1
      have hlt := (v.num + s.b.lit).isLt
      omega
    | k + 2 => exact nomatch hk

/-- A statement of a parsed text was read in the state of the parser at its line. -/
theorem read_of_mem {text : Text} (hs : s ∈ (parse text).stmts) : ∃ P : Parser, Extends (parse text) P ∧ Read P s := by
  obtain ⟨done, rest, heq⟩ := List.append_of_mem hs
  obtain ⟨pre, raw, post, dst, htext, -, hparsed, -⟩ := RunnerAux.exists_line (getlines '\n' text) sound_empty heq (Nat.zero_le _)
  refine ⟨_, ⟨?_, (sound_lines (getlines '\n' text) sound_empty).nodup⟩, read_of_parsed hparsed⟩
  unfold parse
  rw [htext, RunnerAux.lines_append]
  exact (RunnerAux.prefix_lines _ (sound_lines pre sound_empty)).2

/-- Two reservations side by side, and a chunk that fits into either. -/
theorem exists_neighbours : ∃ x : Managed Unit, x.Reached false (fun x c _ => x.CanCreate c) ∧
    x.m.reservations[(0x400000 : Ptr)]? = some 0x200000 ∧ x.MapsAt ⟨1, 0⟩ 0x200000 ∧ x.MapsAt ⟨1, 0⟩ 0x400000 := by
  obtain ⟨x, hreached, hx, hserial, hgran, hc, hallow, honly, hunmapped⟩ :=
    ManagerAux.exists_mappable false (fun x c _ => x.CanCreate c) fun _ _ h => h
  have hround : x.m.roundUp 0x200000 = 0x200000 := by
    unfold Manager.roundUp
    rw [hgran]
    decide
  have hgives : x.d.Gives (.reserve 0x200000 x.m.gran) 0x400000 := by
    refine ⟨⟨by decide, by decide, by decide, fun va size hr => ?_⟩, by decide⟩
    rw [hx.reservations] at hr
    obtain ⟨rfl, rfl⟩ := honly va size hr
    decide
  have hstep := @ManagerAux.reserve_step Unit false x 0x200000 0x400000 () (by rw [hround]; exact hgives)
  rw [hround] at hstep
  have hsound := ManagerAux.sound_reserve hx hgives
  have hupper : (x.m.reservations.insert 0x400000 0x200000)[(0x400000 : Ptr)]? = some 0x200000 :=
    (OrdMap.getElem?_insert _ _ _ _).trans (if_pos rfl)
  refine ⟨_, hreached.call hstep nofun, hupper, ManagerAux.mapsAt_of_allows hsound ?_, ManagerAux.mapsAt_of_allows hsound ?_⟩
  · obtain ⟨ch, hlive, hmapped, hal, ⟨base, len, hr, hin⟩, hun⟩ := hallow
    refine ⟨ch, hlive, hmapped, hal, ⟨base, len, ?_, hin⟩, hun⟩
    have hne : base ≠ 0x400000 := by
      rw [(honly base len hr).1]
      decide
    exact ((OrdMap.getElem?_insert _ _ _ _).trans (if_neg hne)).trans hr
  · have hlive : x.m.abs.live ⟨1, 0⟩ = some ⟨0x200000, .device, none⟩ := by
      rw [ManagerAux.live_of_token hserial.symm, hc]
      rfl
    refine ⟨_, hlive, rfl, ?_, ⟨0x400000, 0x200000, hupper, by decide, by decide⟩, fun id o va' ho hva => ?_⟩
    · show (0x400000 : Ptr) % x.m.gran = 0
      rw [hgran]
      decide
    · rw [hunmapped id o ho] at hva
      cases hva

end NumbersAux

open NumbersAux in
/-- For every statement of a parsed text, all values of its variables and any manager and driver: its primitive acts on the number that the
source denotes, or the line fails, exactly if its numbers fit. -/
theorem numbers_exact {β : Type} [Inhabited β] (fails : Bool) (text : Text) (s : Stmt) (hs : s ∈ (parse text).stmts) (c : Ctx)
    (x : Managed β) : s.Exact fails (parse text) c x ↔ s.NumbersFit c x := by
  obtain ⟨P, hp, hread⟩ := read_of_mem hs
  exact ⟨fit_of_exact hp hread, exact_of_fit hp hread⟩

namespace NumbersAux

/-- The lines of a script that the parser accepts as they are. -/
def wrapping : Text :=
  ["a = reserve(2M)\n", "r = reserve(2M)\n", "c = create(2M, device)\n", "map(c, r + 17592186044414M)\n", "sleep(9223372036855s)"].flatMap
    String.toList

def wrappingMap : Stmt :=
  { line := 4, text := "map(c, r + 17592186044414M)".toList, call := .map, a := ⟨some 2, 0⟩, b := ⟨some 1, 17592186044414 * 2 ^ 20⟩ }

def wrappingSleep : Stmt :=
  { line := 5, text := "sleep(9223372036855s)".toList, call := .sleep, a := ⟨none, 9223372036855 * 10 ^ 6⟩ }

/-- The slots after the first three lines. -/
def wrappingCtx : Ctx :=
  { p := parse wrapping, vals := [⟨.addr, 0x200000, {}⟩, ⟨.addr, 0x400000, {}⟩, ⟨.chunk, 0, ⟨1, 0⟩⟩] }

/-- The same lines, with an offset that does not wrap. -/
def nearby : Text := ["a = reserve(2M)\n", "r = reserve(2M)\n", "c = create(2M, device)\n", "map(c, a + 2M)"].flatMap String.toList

def nearbyMap : Stmt := { line := 4, text := "map(c, a + 2M)".toList, call := .map, a := ⟨some 2, 0⟩, b := ⟨some 0, 2 ^ 21⟩ }

def nearbyCtx : Ctx := { wrappingCtx with p := parse nearby }

/-- The parser reads these statements. -/
theorem stmts_parsed : nearbyMap ∈ (parse nearby).stmts ∧ wrappingMap ∈ (parse wrapping).stmts ∧ wrappingSleep ∈ (parse wrapping).stmts := by
  decide +kernel

end NumbersAux

open NumbersAux in
/-- In a state that the first three lines reach, the fourth returns with the chunk at the sum, which is in the other reservation. -/
theorem numbers_exact_nearby : ∃ x : Managed Unit, x.Reached false (fun x c _ => x.CanCreate c) ∧
    nearbyMap.Exact false (parse nearby) nearbyCtx x ∧
    ∃ (v : Value) (c' : Ctx) (w : Acting Unit), Prog.Runs (Acting.world Unit false) ((Call.run nearbyMap .map).run nearbyCtx) { x } (.ok v, c') w ∧
      w.acts = [0x400000] := by
  obtain ⟨x, hreached, hr, -, hmaps⟩ := exists_neighbours
  obtain ⟨hmap, -, -⟩ := stmts_parsed
  have hfit : nearbyMap.NumbersFit nearbyCtx x := by
    refine ⟨nofun, fun _ i j u v _ hj _ hv _ _ => .inl ?_⟩
    obtain rfl : 0 = j := Option.some.inj hj
    obtain rfl : (⟨.addr, 0x200000, {}⟩ : Value) = v := Option.some.inj hv
    decide
  have ho : MapOperands nearbyCtx nearbyMap ⟨.chunk, 0, ⟨1, 0⟩⟩ ⟨.addr, 0x200000, {}⟩ := ⟨2, 0, rfl, rfl, rfl, rfl, rfl, rfl⟩
  have hsum : (0x200000 : Ptr) + nearbyMap.b.lit = 0x400000 := by decide
  obtain ⟨v, c', w, hruns, hacts⟩ := @map_returns _ _ Unit false x _ _ _ ho (by rw [hsum]; exact hmaps)
  rw [hsum] at hacts
  exact ⟨x, hreached, (numbers_exact false _ _ hmap _ _).2 hfit, v, c', w, hruns, hacts⟩

open NumbersAux in
/-- In a state that the first three lines reach, the fourth returns from the reservation below that of its variable; and the fifth sleeps a
negative time. -/
theorem numbers_not_exact : wrappingMap ∈ (parse wrapping).stmts ∧ wrappingSleep ∈ (parse wrapping).stmts ∧ ∃ x : Managed Unit,
    x.Reached false (fun x c _ => x.CanCreate c) ∧ x.m.reservations[(0x400000 : Ptr)]? = some 0x200000 ∧
      ¬wrappingMap.Exact false (parse wrapping) wrappingCtx x ∧ ¬wrappingSleep.Exact false (parse wrapping) wrappingCtx x := by
  obtain ⟨-, hmap, hsleep⟩ := stmts_parsed
  obtain ⟨x, hreached, hr, hmaps, -⟩ := exists_neighbours
  refine ⟨hmap, hsleep, x, hreached, hr, fun h => ?_, fun h => ?_⟩
  · obtain ⟨P, hp, hread⟩ := read_of_mem hmap
    have hfit := (fit_of_exact hp hread h).2 rfl 2 1 _ _ rfl rfl rfl rfl rfl rfl
    exact hfit.elim (by decide) fun hno => hno hmaps
  · obtain ⟨P, hp, hread⟩ := read_of_mem hsleep
    exact absurd ((fit_of_exact hp hread h).1 rfl) (by decide)

end Vmem
