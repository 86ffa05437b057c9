import Vmem.Lemmas.Limits

/-!
# Going over a limit (K4)

Only a `Hello` and the reports that the broker cannot refuse take a count over a limit, in every run whose messages agree with the
record of the chunk that is moving.
-/

namespace Vmem

namespace OverLimitAux

open LimitsAux

/-- The limits are part of what is not counted. -/
theorem cap_of_rest {g g' : Global} (h : g'.rest = g.rest) : g'.cap = g.cap := by
  have hv := congrArg Global.vramLimit h
  have hd := congrArg Global.dramLimit h
  funext l
  cases l
  · exact hv
  · exact hd

/-- The counts of a tenant before and after an event of its own are exact, and so are the global counts, which hold the same for the
others. -/
theorem counts_exact {b b' : Broker} {fd : Fd} {t t' : Tenant} {l : Loc} (hb : b.Conserved) (hs : b.Sound)
    (hb' : b'.Conserved) (hs' : b'.Sound) (hlt : b.owed l < 2 ^ 64) (hlt' : b'.owed l < 2 ^ 64)
    (ht : b.tenants[fd]? = some t) (ht' : b'.tenants[fd]? = some t')
    (hother : b'.tenants.erase fd = b.tenants.erase fd) (hov : b'.g.ctxOverhead = b.g.ctxOverhead) :
    (t.count l).toNat = t.owed BitVec.toNat b.g.ctxOverhead l ∧ (t'.count l).toNat = t'.owed BitVec.toNat b.g.ctxOverhead l ∧
      ∃ n : ℕ, (b.g.count l).toNat = t.owed BitVec.toNat b.g.ctxOverhead l + n ∧
        (b'.g.count l).toNat = t'.owed BitVec.toNat b.g.ctxOverhead l + n := by
  have htenant := (hs fd t ht).exact (lt_of_le_of_lt (Tenant.owed_le_broker ht l) hlt)
  have htenant' := (hs' fd t' ht').exact (lt_of_le_of_lt (Tenant.owed_le_broker ht' l) hlt')
  have hsplit : b.owed l = _ + _ := OrdMap.total_of_getElem? ht fun _ t => t.owed BitVec.toNat b.g.ctxOverhead l
  have hsplit' : b'.owed l = _ + _ := OrdMap.total_of_getElem? ht' fun _ t => t.owed BitVec.toNat b'.g.ctxOverhead l
  rw [hother, hov] at hsplit'
  rw [hov] at htenant'
  exact ⟨htenant, htenant', _, (Broker.exact hb hs hlt).trans hsplit, (Broker.exact hb' hs' hlt').trans hsplit'⟩

/-- A departure takes no count over its limit. -/
theorem leave_not_pushes {b : Broker} {e : Event} {t : Tenant} {l : Loc} (hb : b.Conserved) (hs : b.Sound)
    (hlt : b.owed l < 2 ^ 64) (ht : b.tenants[e.fd]? = some t) (he : (b.step e).b = (b.onDisconnect e.fd t).b) :
    ¬b.Pushes e l := by
  have hle := Tenant.owed_le_broker ht l
  have htenant := (hs e.fd t ht).exact (lt_of_le_of_lt hle hlt)
  have hglobal := Broker.exact hb hs hlt
  have hg : (b.step e).b.g.count l = b.g.count l - t.count l := by
    rw [he]
    cases l <;> rfl
  have hcap := cap_of_rest (b.step_config e)
  rintro (⟨h₁, h₂⟩ | ⟨fd, u, u', hu, hu', h₁, h₂⟩)
  · rw [hg, hcap] at h₂
    have hsub : (b.g.count l - t.count l).toNat = (b.g.count l).toNat - (t.count l).toNat :=
      BitVec.toNat_sub_of_le (by rw [BitVec.le_def]; omega)
    simp only [BitVec.le_def, BitVec.lt_def] at h₁ h₂
    omega
  · by_cases hfd : e.fd = fd
    · subst hfd
      rw [he] at hu'
      simp [Broker.onDisconnect] at hu'
    · rw [BrokerOrderAux.step_getElem?_other hfd, hu] at hu'
      cases hu'
      exact absurd h₁ (BitVec.not_le.2 h₂)

/-- A connection counts nothing. -/
theorem connect_not_pushes {b : Broker} {fd : Fd} {pid : Nat} {l : Loc} : ¬b.Pushes (.connect fd pid) l := by
  rintro (⟨h₁, h₂⟩ | ⟨k, u, u', hu, hu', h₁, h₂⟩)
  · exact absurd h₁ (BitVec.not_le.2 h₂)
  · by_cases hfd : fd = k
    · subst hfd
      simp only [Broker.step, Broker.onConnect, Std.ExtTreeMap.getElem?_insert_self, Option.some.injEq,
        Std.ExtTreeMap.getD_eq_getD_getElem?, hu, Option.getD_some] at hu'
      subst hu'
      cases l <;> exact absurd h₁ (BitVec.not_le.2 h₂)
    · rw [BrokerOrderAux.step_getElem?_other (e := .connect fd pid) hfd, hu] at hu'
      cases hu'
      exact absurd h₁ (BitVec.not_le.2 h₂)

/-- A message that takes a count over its limit is a `Hello` or a report that is logged. -/
theorem msg_pushes {b : Broker} {fd : Fd} {t : Tenant} {m : Msg} {l : Loc} (hb : b.Conserved) (hs : b.Sound)
    (hlt : b.owed l < 2 ^ 64) (hlt' : (b.step (.msg fd m)).b.owed l < 2 ^ 64) (ht : b.tenants[fd]? = some t)
    (hr : t.ResyncKeepsSize m) (hmd : t.LandsKnown m) (hp : b.Pushes (.msg fd m) l) :
    ∃ t', (b.step (.msg fd m)).b.tenants[fd]? = some t' ∧ (m.type = .hello ∨ (t.Reports m ∧ ∃ f : LocField, f.side = l ∧
      .overLimit f t'.pid (t'.count l) ((b.step (.msg fd m)).b.g.count l) ((b.step (.msg fd m)).b.g.cap l) ∈
        (b.step (.msg fd m)).log)) := by
  have hstep := BrokerOrderAux.step_msg ht m
  have hb' := Broker.step_conserved hb (.msg fd m)
  have hs' : (b.step (.msg fd m)).b.Sound := Broker.step_sound hs fun _ u hu => by
    have hu : b.tenants[fd]? = some u := hu
    rw [ht] at hu
    cases hu
    exact hr
  have hother : (b.step (.msg fd m)).b.tenants.erase fd = b.tenants.erase fd := b.step_other (.msg fd m)
  have hov := b.step_ctxOverhead (.msg fd m)
  have hcap := cap_of_rest (b.step_config (.msg fd m))
  have hkeeps := handle_keeps { t, g := b.g } m
  -- what the push says of this tenant and of the global count
  have hpush : ∀ t' : Tenant, (b.step (.msg fd m)).b.tenants[fd]? = some t' → t'.cap = t.cap →
      (b.g.count l ≤ b.g.cap l ∧ b.g.cap l < (b.step (.msg fd m)).b.g.count l) ∨
        (t.count l ≤ t.cap l ∧ t.cap l < t'.count l) := by
    intro t' ht' hc
    rcases hp with ⟨h₁, h₂⟩ | ⟨k, u, u', hu, hu', h₁, h₂⟩
    · rw [hcap] at h₂
      exact .inl ⟨h₁, h₂⟩
    · by_cases hfd : fd = k
      · subst hfd
        rw [ht] at hu
        rw [ht'] at hu'
        cases hu
        cases hu'
        rw [hc] at h₂
        exact .inr ⟨h₁, h₂⟩
      · rw [BrokerOrderAux.step_getElem?_other (e := .msg fd m) hfd, hu] at hu'
        cases hu'
        exact absurd h₁ (BitVec.not_le.2 h₂)
  have ht' : (b.step (.msg fd m)).b.tenants[fd]? = some (handle { t, g := b.g } m).1.t := by
    rw [hstep]
    simp [Broker.onMsg]
  obtain ⟨hc, hc', n, hg, hg'⟩ := counts_exact hb hs hb' hs' hlt hlt' ht ht' hother hov
  have hpush := hpush _ ht' hkeeps.cap
  refine ⟨_, ht', ?_⟩
  by_cases hm : m.type = .hello
  · exact .inl hm
  · right
    have hhello : (handle { t, g := b.g } m).1.t.hello = t.hello := hello_of_handle (w := { t, g := b.g }) hm
    have howed : ∀ k : ℕ, (handle { t, g := b.g } m).1.t.bytes l ≤ t.bytes l + k →
        (handle { t, g := b.g } m).1.t.owed BitVec.toNat b.g.ctxOverhead l ≤ t.owed BitVec.toNat b.g.ctxOverhead l + k := by
      intro k hk
      rw [Tenant.owed_eq_bytes, Tenant.owed_eq_bytes, Tenant.overhead, Tenant.overhead, hhello]
      omega
    have hle : ¬(handle { t, g := b.g } m).1.t.bytes l ≤ t.bytes l := by
      intro hle
      have hle := howed 0 hle
      simp only [BitVec.le_def, BitVec.lt_def] at hpush
      omega
    cases hreq : m.type.isRequest with
    | true =>
      rcases (request_raised (g := b.g) hreq l).2 (hs fd t ht) with heq | ⟨size, heq, hft, hfg, -⟩
      · exact absurd (le_of_eq heq) hle
      · -- the sums of the test are those of the counts, which do not wrap
        have hle := howed size.toNat (le_of_eq heq)
        have hlt_t := (t.count l + size).isLt
        have h1 : (handle { t, g := b.g } m).1.t.owed BitVec.toNat b.g.ctxOverhead l =
            t.owed BitVec.toNat b.g.ctxOverhead l + size.toNat := by
          rw [Tenant.owed_eq_bytes, Tenant.owed_eq_bytes, Tenant.overhead, Tenant.overhead, hhello, heq]
          omega
        have hwt := ((handle { t, g := b.g } m).1.t.count l).isLt
        have hwg := ((b.step (.msg fd m)).b.g.count l).isLt
        simp only [BitVec.le_def, BitVec.lt_def, BitVec.toNat_add] at hpush hft hfg
        rw [Nat.mod_eq_of_lt (by omega)] at hft hfg
        omega
    | false =>
      rcases report_bytes (g := b.g) (hs fd t ht) hreq hr hmd l with hbytes | ⟨hrep, hlog⟩
      · exact absurd hbytes hle
      · refine ⟨hrep, ?_⟩
        have hgo : (b.step (.msg fd m)).b.g = (handle { t, g := b.g } m).1.g := by
          rw [hstep]
          rfl
        have hlogs : (b.step (.msg fd m)).log = (handle { t, g := b.g } m).1.log := by
          rw [hstep]
          rfl
        rw [hgo, hlogs]
        refine hlog ?_
        rw [hkeeps.cap, ← hgo, hcap]
        exact hpush.elim (fun h => .inr h.2) fun h => .inl h.2

end OverLimitAux

open OverLimitAux

/-- K4. In every run whose true totals stay below 2^64, in which no `Resync` changes the size of the moving chunk and no `MoveDone`
of a granted move reports a place other than its target and the place on record: an event that takes the count of a tenant or the
global count over its limit is a `Hello`, or an `AllocFail`, a `Resync` or a `MoveDone` that was not granted, and those are logged
as over the limit. -/
theorem only_reports_push (cfg : Global) (b : Broker)
    (h : Broker.Reached cfg (fun b e => b.KeepsMovingSize e ∧ b.LandsKnown e ∧ ∀ l, (b.step e).b.owed l < 2 ^ 64) b) (e : Event)
    (he : b.KeepsMovingSize e ∧ b.LandsKnown e ∧ ∀ l, (b.step e).b.owed l < 2 ^ 64) (l : Loc) (hp : b.Pushes e l) :
    ∃ (r : Recv) (t t' : Tenant), e = .readable e.fd r ∧ r.n = sizeofMsg ∧ b.tenants[e.fd]? = some t ∧
      (b.step e).b.tenants[e.fd]? = some t' ∧ (r.m.type = .hello ∨ (t.Reports r.m ∧ ∃ f : LocField, f.side = l ∧
        .overLimit f t'.pid (t'.count l) ((b.step e).b.g.count l) ((b.step e).b.g.cap l) ∈ (b.step e).log)) := by
  have hs : b.Sound := h.sound fun _ _ he => he.1
  have hc : b.Conserved := h.conserved
  have hlt : b.owed l < 2 ^ 64 :=
    h.induct (P := fun b => ∀ l, b.owed l < 2 ^ 64) (by simp [Broker.owed, Broker.start]) (fun _ _ _ he => he.2.2) l
  rcases b.step_cases e with ⟨hb, -⟩ | ⟨pid, hcon, -⟩ | ⟨t, ht, hb, -⟩ | ⟨t, r, ht, hr, hn, hb⟩
  · exfalso
    rcases hp with ⟨h₁, h₂⟩ | ⟨fd, t, t', ht, ht', h₁, h₂⟩
    · rw [hb] at h₂
      exact absurd h₁ (BitVec.not_le.2 h₂)
    · rw [hb, ht] at ht'
      cases ht'
      exact absurd h₁ (BitVec.not_le.2 h₂)
  · rw [hcon] at hp
    exact absurd hp connect_not_pushes
  · exact absurd hp (leave_not_pushes hc hs hlt ht hb)
  · have hmsg : b.step e = b.step (.msg e.fd r.m) := by rw [hb, BrokerOrderAux.step_msg ht]
    have hp' : b.Pushes (.msg e.fd r.m) l := by
      unfold Broker.Pushes at hp ⊢
      rw [← hmsg]
      exact hp
    obtain ⟨hk, hland, hlt'⟩ := he
    rw [hr] at hk hland
    have hlt' := hlt' l
    rw [hmsg] at hlt' ⊢
    obtain ⟨t', ht', hout⟩ := msg_pushes hc hs hlt hlt' ht (hk hn t ht) (hland hn t ht) hp'
    exact ⟨r, t, t', hr, hn, ht, ht', hout⟩

/-- The host is full when the device memory of a chunk cannot be had: the `AllocFail` takes the host over its limit. -/
theorem only_reports_push_allocFail : ∃ t : Tenant, ((Broker.start { vramLimit := 10, dramLimit := 5 }).run [.connect 5 1,
    .msg 5 { type := .alloc, ptr := 1, size := 10 }]).tenants[5]? = some t ∧ t.Reports { type := .allocFail, ptr := 1 } := by
  have h : Broker.Reached { vramLimit := 10, dramLimit := 5 }
      (fun b e => b.KeepsMovingSize e ∧ b.LandsKnown e ∧ ∀ l, (b.step e).b.owed l < 2 ^ 64)
      ((Broker.start { vramLimit := 10, dramLimit := 5 }).run [.connect 5 1,
        .msg 5 { type := .alloc, ptr := 1, size := 10 }]) := by
    refine .step (.step .start ?_) ?_ <;> exact ⟨by decide, by decide, by decide⟩
  obtain ⟨r, t, t', hr, -, ht, -, hout⟩ := only_reports_push _ _ h (.msg 5 { type := .allocFail, ptr := 1 })
    ⟨by decide, by decide, by decide⟩ .host (.inl (by decide))
  cases hr
  rcases hout with hm | ⟨hrep, -⟩
  · cases hm
  · exact ⟨t, ht, hrep⟩

/-- K4 is false for any reports: while the eviction of a chunk of ten bytes is granted, an `AllocFail` records it on the host and a
second chunk takes its place on the device; the `MoveDone` that reports the first one back on the device takes the device over its
limit of ten bytes. -/
theorem only_reports_push_false : ¬∀ (cfg : Global) (b : Broker),
    Broker.Reached cfg (fun b e => ∀ l, (b.step e).b.owed l < 2 ^ 64) b →
      ∀ e : Event, (∀ l, (b.step e).b.owed l < 2 ^ 64) → ∀ l : Loc, b.Pushes e l →
        ∃ (r : Recv) (t : Tenant), e = .readable e.fd r ∧ b.tenants[e.fd]? = some t ∧ (r.m.type = .hello ∨ t.Reports r.m) := by
  intro hall
  have h : Broker.Reached { vramLimit := 10 } (fun b e => ∀ l, (b.step e).b.owed l < 2 ^ 64)
      ((Broker.start { vramLimit := 10 }).run [.connect 5 1, .msg 5 { type := .alloc, ptr := 1, size := 10 },
        .msg 5 { type := .move, ptr := 1, loc := .host }, .msg 5 { type := .allocFail, ptr := 1 },
        .msg 5 { type := .alloc, ptr := 2, size := 10 }]) := by
    refine .step (.step (.step (.step (.step .start ?_) ?_) ?_) ?_) ?_ <;>
      decide
  obtain ⟨r, t, hr, ht, hrep⟩ := hall _ _ h (.msg 5 { type := .moveDone, ptr := 1 }) (by decide) .device
    (.inl (by decide))
  cases hr
  cases ht
  rcases hrep with hm | hm | hm | ⟨-, hm⟩
  · cases hm
  · cases hm
  · cases hm
  · exact hm ⟨1, .host⟩ rfl rfl

end Vmem
