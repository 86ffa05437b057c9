import Vmem.Lemmas.Handlers

/-!
# Events and runs of the broker

What one event can do to the whole broker (`Broker.step_cases`), and from it what every run keeps: the global counts are the
sums over the connected tenants, and every record agrees with itself.
-/

namespace Vmem

/-! ## One event -/

/-- What an event does: nothing, a fresh or known record for a connection, the departure of a tenant, or one message. -/
theorem Broker.step_cases (b : Broker) (e : Event) :
    (b.step e).b = b ∧ (b.step e).wrapped = false ∨
    (∃ pid, e = .connect e.fd pid ∧ b.step e = b.onConnect e.fd pid) ∨
    (∃ t, b.tenants[e.fd]? = some t ∧ (b.step e).b = (b.onDisconnect e.fd t).b ∧ (b.step e).wrapped = false) ∨
    (∃ t r, b.tenants[e.fd]? = some t ∧ e = .readable e.fd r ∧ r.n = sizeofMsg ∧ b.step e = b.onMsg e.fd t r.m) := by
  cases e with
  | connect fd pid => exact Or.inr (Or.inl ⟨pid, rfl, rfl⟩)
  | readable fd r =>
    cases ht : b.tenants[fd]? with
    | none => exact Or.inl ⟨by simp [Broker.step, ht], by simp [Broker.step, ht]⟩
    | some t =>
      have hs : b.step (.readable fd r) = b.onReadable fd t r := by simp [Broker.step, ht]
      rw [hs]
      unfold Broker.onReadable
      split
      · exact Or.inl ⟨rfl, rfl⟩
      · split
        · exact Or.inr (Or.inr (Or.inl ⟨t, ht, rfl, rfl⟩))
        · split
          · exact Or.inr (Or.inr (Or.inl ⟨t, ht, rfl, rfl⟩))
          · rename_i hn
            exact Or.inr (Or.inr (Or.inr ⟨t, r, ht, rfl, by simpa using hn, rfl⟩))

/-- The count of a connected descriptor is that of its tenant. -/
theorem Broker.countAt_of_getElem? {b : Broker} {fd : Fd} {t : Tenant} (h : b.tenants[fd]? = some t) (l : Loc) :
    b.countAt fd l = t.count l := by
  simp [Broker.countAt, h]

/-- The total over the tenants: the share of one descriptor and that of the others. -/
theorem Broker.total_count (b : Broker) (fd : Fd) (l : Loc) :
    OrdMap.total b.tenants (fun _ t => t.count l) =
      b.countAt fd l + OrdMap.total (b.tenants.erase fd) fun _ t => t.count l := by
  cases h : b.tenants[fd]? with
  | none => simp [Broker.countAt, h, OrdMap.erase_of_getElem? h]
  | some t => rw [OrdMap.total_of_getElem? h, Broker.countAt_of_getElem? h]

/-- An event touches the record of its own tenant only. -/
theorem Broker.step_other (b : Broker) (e : Event) : (b.step e).b.tenants.erase e.fd = b.tenants.erase e.fd := by
  have key (m : OrdMap Fd Tenant) (t : Tenant) : (m.insert e.fd t).erase e.fd = m.erase e.fd := by
    apply Std.ExtTreeMap.ext_getElem?
    intro k
    by_cases hk : e.fd = k <;> simp [Std.ExtTreeMap.getElem?_insert, Std.ExtTreeMap.getElem?_erase, hk]
  rcases b.step_cases e with ⟨h, -⟩ | ⟨pid, -, h⟩ | ⟨t, -, h, -⟩ | ⟨t, r, -, -, -, h⟩
  · rw [h]
  · rw [h]
    exact key _ _
  · rw [h]
    apply Std.ExtTreeMap.ext_getElem?
    intro k
    by_cases hk : e.fd = k <;> simp [Broker.onDisconnect, Std.ExtTreeMap.getElem?_erase, hk]
  · rw [h]
    exact key _ _

/-- An event changes the global counts by exactly the change of its own tenant's counts. -/
theorem Broker.step_balance (b : Broker) (e : Event) (l : Loc) :
    (b.step e).b.g.count l - (b.step e).b.countAt e.fd l = b.g.count l - b.countAt e.fd l := by
  rcases b.step_cases e with ⟨h, -⟩ | ⟨pid, -, h⟩ | ⟨t, ht, h, -⟩ | ⟨t, r, ht, -, -, h⟩
  · rw [h]
  · rw [h]
    have hc : (b.onConnect e.fd pid).b.countAt e.fd l = b.countAt e.fd l := by
      cases hb : b.tenants[e.fd]? <;>
        cases l <;> simp [Broker.onConnect, Broker.countAt, Std.ExtTreeMap.getD_eq_getD_getElem?, hb, Tenant.count]
    rw [hc]
    rfl
  · rw [h]
    have hg : (b.onDisconnect e.fd t).b.g.count l = b.g.count l - t.count l := by cases l <;> rfl
    have hc : (b.onDisconnect e.fd t).b.countAt e.fd l = 0 := by simp [Broker.onDisconnect, Broker.countAt]
    rw [hg, hc, Broker.countAt_of_getElem? ht]
    simp
  · rw [h]
    have hk := (handle_keeps { t, g := b.g } r.m).balance l
    have hc : (b.onMsg e.fd t r.m).b.countAt e.fd l = (handle { t, g := b.g } r.m).1.t.count l := by
      simp [Broker.onMsg, Broker.countAt]
    rw [hc, Broker.countAt_of_getElem? ht]
    exact hk

/-- No event changes the configuration. -/
theorem Broker.step_config (b : Broker) (e : Event) : (b.step e).b.g.rest = b.g.rest := by
  rcases b.step_cases e with ⟨h, -⟩ | ⟨pid, -, h⟩ | ⟨t, -, h, -⟩ | ⟨t, r, -, -, -, h⟩
  · rw [h]
  · rw [h]
    rfl
  · rw [h]
    rfl
  · rw [h]
    exact (handle_keeps { t, g := b.g } r.m).config

/-- No event changes the overhead of a context. -/
theorem Broker.step_ctxOverhead (b : Broker) (e : Event) : (b.step e).b.g.ctxOverhead = b.g.ctxOverhead := by
  have h := congrArg Global.ctxOverhead (b.step_config e)
  exact h

/-! ## Conservation -/

/-- How far a global count is from the sum over the connected tenants. -/
def Broker.slack (b : Broker) (l : Loc) : Size := b.g.count l - OrdMap.total b.tenants fun _ t => t.count l

/-- An event changes the global counts by what it changes the counts of its tenant. -/
theorem Broker.step_slack (b : Broker) (e : Event) (l : Loc) : (b.step e).b.slack l = b.slack l := by
  unfold Broker.slack
  rw [Broker.total_count (b.step e).b e.fd, Broker.total_count b e.fd, b.step_other e, ← sub_sub, ← sub_sub,
    b.step_balance e l]

/-- So the difference is the same after any events. -/
theorem Broker.run_slack (b : Broker) (es : List Event) (l : Loc) : (b.run es).slack l = b.slack l := by
  induction es generalizing b with
  | nil => rfl
  | cons e es ih => exact (ih (b.step e).b).trans (b.step_slack e l)

/-- The limits and the overhead are those of the start. -/
theorem Broker.run_config (b : Broker) (es : List Event) : (b.run es).g.rest = b.g.rest := by
  induction es generalizing b with
  | nil => rfl
  | cons e es ih => exact (ih (b.step e).b).trans (b.step_config e)

/-- The counts are conserved when no global count differs from its sum. -/
theorem Broker.conserved_iff (b : Broker) : b.Conserved ↔ ∀ l, b.slack l = 0 :=
  forall_congr' fun _ => sub_eq_zero.symm

/-- A broker that starts has counted nothing. -/
theorem Broker.start_conserved (cfg : Global) : (Broker.start cfg).Conserved := by
  intro l
  cases l <;> simp [Broker.start, Global.count]

/-- One event conserves the counts. -/
theorem Broker.step_conserved {b : Broker} (h : b.Conserved) (e : Event) : (b.step e).b.Conserved := by
  rw [Broker.conserved_iff] at h ⊢
  exact fun l => (b.step_slack e l).trans (h l)

/-- Any events conserve them. -/
theorem Broker.run_conserved {b : Broker} (h : b.Conserved) (es : List Event) : (b.run es).Conserved := by
  rw [Broker.conserved_iff] at h ⊢
  exact fun l => (b.run_slack es l).trans (h l)

/-! ## The books of the whole broker -/

/-- A tenant without chunks, move and greeting that counts nothing agrees with itself. -/
theorem Tenant.sound_default (ov : Size) (t : Tenant) (hk : t.chunks = ∅) (hm : t.moving = none) (hh : t.hello = false)
    (hc : ∀ l, t.count l = 0) : t.Sound ov :=
  ⟨fun l => by simp [Tenant.owed_eq, hk, hm, hh, hc], by simp [hm]⟩

/-- One event keeps the books, if a `Resync` of the moving chunk names its size. -/
theorem Broker.step_sound {b : Broker} (h : b.Sound) {e : Event} (hs : b.KeepsMovingSize e) : (b.step e).b.Sound := by
  intro fd t' ht'
  rw [b.step_ctxOverhead e]
  by_cases hfd : fd = e.fd
  · subst hfd
    rcases b.step_cases e with ⟨hb, -⟩ | ⟨pid, -, hb⟩ | ⟨t, -, hb, -⟩ | ⟨t, r, ht, he, hn, hb⟩
    · exact h _ _ (hb ▸ ht')
    · rw [hb] at ht'
      simp only [Broker.onConnect, Std.ExtTreeMap.getElem?_insert_self, Option.some.injEq,
        Std.ExtTreeMap.getD_eq_getD_getElem?] at ht'
      cases hold : b.tenants[e.fd]? with
      | none =>
        simp only [hold, Option.getD_none] at ht'
        subst ht'
        exact Tenant.sound_default _ _ rfl rfl rfl (fun l => by cases l <;> rfl)
      | some t =>
        simp only [hold, Option.getD_some] at ht'
        subst ht'
        refine ⟨fun l => ?_, (h _ _ hold).tracked⟩
        have hc := (h _ _ hold).counts l
        cases l <;> exact hc
    · rw [hb] at ht'
      simp [Broker.onDisconnect] at ht'
    · rw [hb] at ht'
      simp only [Broker.onMsg, Std.ExtTreeMap.getElem?_insert_self, Option.some.injEq] at ht'
      subst ht'
      exact handle_sound (w := { t, g := b.g }) (h _ _ ht) ((he ▸ hs : b.KeepsMovingSize (.readable e.fd r)) hn t ht)
  · refine h fd t' ?_
    have ho := congrArg (fun m => m[fd]?) (b.step_other e)
    simpa [Std.ExtTreeMap.getElem?_erase, Ne.symm hfd, ht'] using ho.symm

/-- What holds at the start and after every event of a run holds in every state of it. -/
theorem Broker.Reached.induct {cfg : Global} {ok : Broker → Event → Prop} {P : Broker → Prop} {b : Broker}
    (h : Reached cfg ok b) (h0 : P (.start cfg)) (hstep : ∀ b e, P b → ok b e → P (b.step e).b) : P b := by
  induction h with
  | start => exact h0
  | step _ he ih => exact hstep _ _ ih he

/-- The overhead is that of the configuration in every run. -/
theorem Broker.Reached.ctxOverhead {cfg : Global} {ok : Broker → Event → Prop} {b : Broker} (h : Reached cfg ok b) :
    b.g.ctxOverhead = cfg.ctxOverhead :=
  h.induct (P := fun b => b.g.ctxOverhead = cfg.ctxOverhead) rfl fun b e hb _ => (b.step_ctxOverhead e).trans hb

/-- The counts are conserved in every run. -/
theorem Broker.Reached.conserved {cfg : Global} {ok : Broker → Event → Prop} {b : Broker} (h : Reached cfg ok b) :
    b.Conserved :=
  h.induct (P := Broker.Conserved) (Broker.start_conserved cfg) fun _ e hb _ => Broker.step_conserved hb e

/-- The books are kept in every run whose events allow it. -/
theorem Broker.Reached.sound {cfg : Global} {ok : Broker → Event → Prop} (hok : ∀ b e, ok b e → b.KeepsMovingSize e)
    {b : Broker} (h : Reached cfg ok b) : b.Sound := by
  refine h.induct (P := Broker.Sound) (fun fd t ht => ?_) fun b e hb he => Broker.step_sound hb (hok b e he)
  simp [Broker.start] at ht

/-! ## Exact counts -/

/-- What a tenant owes in words is what it owes in numbers, modulo 2^64. -/
theorem Tenant.cast_owed (ov : Size) (t : Tenant) (l : Loc) : ((t.owed BitVec.toNat ov l : ℕ) : Size) = t.owed id ov l := by
  have hcast (x : Size) : ((x.toNat : ℕ) : Size) = x := by simp
  have htotal := OrdMap.map_total (Nat.castAddMonoidHom Size) t.chunks fun _ c => c.share BitVec.toNat l
  simp only [Nat.coe_castAddMonoidHom] at htotal
  rw [Tenant.owed_eq, Tenant.owed_eq, Nat.cast_add, Nat.cast_add, htotal]
  congr 1
  · congr 1
    · split <;> simp
    · apply OrdMap.total_congr
      intro _ c _
      unfold ChunkRec.share
      split <;> simp
  · cases t.moving with
    | none => simp
    | some mv =>
      dsimp only
      cases t.chunks[mv.ptr]? with
      | none => simp
      | some c =>
        dsimp only
        split <;> simp

/-- A sound record whose true total is below 2^64 has exact counts. -/
theorem Tenant.Sound.exact {ov : Size} {t : Tenant} (h : t.Sound ov) {l : Loc}
    (hlt : t.owed BitVec.toNat ov l < 2 ^ 64) : (t.count l).toNat = t.owed BitVec.toNat ov l := by
  rw [h.counts l, ← Tenant.cast_owed, BitVec.natCast_eq_ofNat, BitVec.toNat_ofNat, Nat.mod_eq_of_lt hlt]

/-- What one tenant owes is at most what all of them owe. -/
theorem Tenant.owed_le_broker {b : Broker} {fd : Fd} {t : Tenant} (h : b.tenants[fd]? = some t) (l : Loc) :
    t.owed BitVec.toNat b.g.ctxOverhead l ≤ b.owed l :=
  OrdMap.le_total h fun _ t => t.owed BitVec.toNat b.g.ctxOverhead l

/-- The global count of a sound broker whose true total is below 2^64 is that total. -/
theorem Broker.exact {b : Broker} (hc : b.Conserved) (hs : b.Sound) {l : Loc} (hlt : b.owed l < 2 ^ 64) :
    (b.g.count l).toNat = b.owed l := by
  have hcast : ((b.owed l : ℕ) : Size) = b.g.count l := by
    have htotal := OrdMap.map_total (Nat.castAddMonoidHom Size) b.tenants
      fun _ t => t.owed BitVec.toNat b.g.ctxOverhead l
    simp only [Nat.coe_castAddMonoidHom, Tenant.cast_owed] at htotal
    rw [hc l, Broker.owed, htotal]
    exact OrdMap.total_congr fun fd t ht => ((hs fd t ht).counts l).symm
  rw [← hcast, BitVec.natCast_eq_ofNat, BitVec.toNat_ofNat, Nat.mod_eq_of_lt hlt]

/-- In a sound broker with true totals below 2^64 no subtraction of any message goes below zero. -/
theorem Broker.step_wrapped {b : Broker} (hc : b.Conserved) (hs : b.Sound) (hlt : ∀ l, b.owed l < 2 ^ 64) (e : Event) :
    (b.step e).wrapped = false := by
  rcases b.step_cases e with ⟨-, h⟩ | ⟨pid, -, h⟩ | ⟨t, -, -, h⟩ | ⟨t, r, ht, -, -, h⟩
  · exact h
  · rw [h]
    rfl
  · exact h
  · rw [h]
    have hcov : Work.Covers { t, g := b.g } (t.owed BitVec.toNat b.g.ctxOverhead) := by
      intro l
      have hle := Tenant.owed_le_broker ht l
      rw [(hs _ _ ht).exact (lt_of_le_of_lt hle (hlt l)), Broker.exact hc hs (hlt l)]
      exact ⟨le_refl _, hle⟩
    exact handle_wrapped r.m hcov

end Vmem
