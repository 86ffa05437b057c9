import Vmem.Lemmas.SharedContents

/-!
# No process waits for ever

A subscriber whose turn it is can take its step, and so some process can until all of them verify (`reached_progress`).
-/

namespace Vmem

namespace Shared

variable {c : Config} {s s' : State c} {x : Fin c.nsub → Ghost}

/-- The chunks of the region that a subscriber writes are mapped. -/
def Roomy (c : Config) (u : Subscriber) : Prop := ∀ g r, u.pc = .tag g r → ∀ o, r.off ≤ o → o < r.off + r.len → o / c.chunk ∈ u.mapped

/-- A subscriber that has room may stand for another. -/
theorem roomy_update {subs : Fin c.nsub → Subscriber} (h : ∀ i, Roomy c (subs i)) {i : Fin c.nsub} {u : Subscriber} (hu : Roomy c u)
    (j : Fin c.nsub) : Roomy c (Function.update subs i u j) := by
  by_cases hj : j = i
  · subst hj
    rwa [Function.update_self]
  · rw [Function.update_of_ne hj]
    exact h j

/-- The first allocation is before the segment grows and the second after it, and a subscriber has all chunks then. -/
theorem Session.allocates (h : Session s x) {i : Fin c.nsub} {g : Stage} (hp : (s.subs i).pc = .alloc g) :
    ∃ n, n ≤ s.handles.length ∧ (∀ q : Nat, (s.subs i).mapped[q]? = (Phase.ready g n).sees s.handles q) ∧
      ((g = .addChunk ∧ n = c.nchk ∧ .grow ∈ s.rest) ∨ (g = .serve ∧ n = c.nchk + 1 ∧ .grow ∉ s.rest)) := by
  have hno : ∀ p : Phase, (s.subs i).pc ≠ p.pc := pc_ne (by simp [hp]) (by simp [hp])
  have hrel := h.rel i
  cases hx : x i with
  | idle p =>
    rw [hx] at hrel
    cases hrel with
    | idle _ hp' => exact absurd hp' (hno _)
  | busy n p t idx p' =>
    have hd := h.due i _ _ _ _ _ hx
    rw [hx] at hrel
    cases hrel with
    | sent _ _ hp' => exact absurd hp' (hno _)
    | got _ _ _ hp' => cases hp'.symm.trans hp
    | done _ _ hp' => exact absurd hp' (hno _)
    | @working _ _ _ _ _ g' hm hn hg hw hi ha hv =>
      rcases hw with hw | ⟨ht, hw⟩
      · cases hw.symm.trans hp
      · obtain rfl : g = g' := by simpa [hp] using hw
        rcases ht with ht | ht
        · subst ht
          cases hm
          cases hg
          exact ⟨n, hn, hv, .inl ⟨rfl, hd.1 rfl⟩⟩
        · subst ht
          cases hm
          cases hg
          exact ⟨n, hn, hv, .inr ⟨rfl, hd.2 rfl⟩⟩

/-- An allocation lies in the chunks that its subscriber has. -/
theorem Session.roomy_alloc (h : Session s x) (hk : Kept s) {i : Fin c.nsub} {g : Stage} (hp : (s.subs i).pc = .alloc g)
    (hf : s.bump + allocLen ≤ s.total) {o : Nat} (ho : o < s.bump + allocLen) : o / c.chunk ∈ (s.subs i).mapped := by
  obtain ⟨n, hn, hv, hcases⟩ := h.allocates hp
  have ht : s.total = c.chunk * n := by
    rcases hcases with ⟨-, rfl, hg⟩ | ⟨-, rfl, hg⟩
    · exact hk.grow hg
    · exact hk.grown hg
  have hlt : o / c.chunk < n := Nat.div_lt_of_lt_mul (ht ▸ ho.trans_le hf)
  rw [Std.ExtTreeMap.mem_iff_isSome_getElem?, hv]
  simp [Phase.sees, Phase.has, hlt, hlt.trans_le hn]

/-- The region that a subscriber writes is mapped, in every reached state. -/
theorem reached_roomy (h : Reached s) : ∀ i, Roomy c (s.subs i) := by
  have hnot {u : Subscriber} (hu : ∀ g r, u.pc ≠ .tag g r) : Roomy c u := fun g r hp => absurd hp (hu g r)
  induction h with
  | start => exact fun i => hnot (by simp)
  | @step s s' h hs ih =>
    cases hs with
    | addChunk => exact ih
    | grow => exact ih
    | remapBacking => exact ih
    | send => exact roomy_update ih (ih _)
    | await => exact roomy_update ih (ih _)
    | recv => exact roomy_update ih (hnot (by simp))
    | act hp hu => exact roomy_update ih (hnot (act_pc hu))
    | @alloc i g hp hf =>
      obtain ⟨x, hx⟩ := reached_session h
      refine roomy_update ih fun g' r hr o hlo hhi => ?_
      cases hr
      exact hx.roomy_alloc (reached_kept h) hp hf hhi
    | tag => exact roomy_update ih (hnot (by simp))
    | reply => exact roomy_update ih (hnot (by simp))

/-- A chunk that is not mapped can be mapped. -/
theorem mapChunk_some {idx : Nat} {y : Handle} {mp : OrdMap Nat Handle} (h : mp[idx]? = none) : mapChunk idx y mp = some (mp.insert idx y) := by
  unfold mapChunk
  rw [if_neg]
  rw [Std.ExtTreeMap.mem_iff_isSome_getElem?, h]
  simp

theorem mapChunks_some : ∀ {hs : List Handle} {a : Nat} {mp : OrdMap Nat Handle}, (∀ q : Nat, a ≤ q → mp[q]? = none) →
    ∃ mp', mapChunks a hs mp = some mp' := by
  intro hs
  induction hs with
  | nil => exact fun _ => ⟨_, rfl⟩
  | cons y hs ih =>
    intro a mp h
    have hnone (q : Nat) (hq : a + 1 ≤ q) : (mp.insert a y)[q]? = none := by
      rw [OrdMap.getElem?_insert, if_neg (by omega)]
      exact h q (by omega)
    obtain ⟨mp', hmp⟩ := ih hnone
    refine ⟨mp', ?_⟩
    rw [mapChunks, mapChunk_some (h a le_rfl)]
    exact hmp

/-- A message that was sent can be acted on. -/
theorem Rel.act_some {hs : List Handle} {u : Subscriber} {y : Ghost} (h : Rel hs u y) {g : Stage} {m : Msg} (hp : u.pc = .got g m) :
    ∃ u', u.act g m = some u' := by
  have hno : ∀ p : Phase, u.pc ≠ p.pc := pc_ne (by simp [hp]) (by simp [hp])
  cases h with
  | idle _ hp' => exact absurd hp' (hno _)
  | sent _ _ hp' => exact absurd hp' (hno _)
  | working _ _ _ hp' => simp [hp] at hp'
  | done _ _ hp' => exact absurd hp' (hno _)
  | @got n p t idx p' m' g' hm hn hg hp' hi ha hf hd hv =>
    obtain ⟨rfl, rfl⟩ : g = g' ∧ m = m' := by simpa [hp] using hp'
    cases hm with
    | header =>
      cases hg
      obtain ⟨mp, hmp⟩ : ∃ mp, mapChunks 0 m.fds u.mapped = some mp := mapChunks_some fun q _ => (hv q).trans rfl
      exact ⟨_, by simp only [Subscriber.act, hmp]; rfl⟩
    | @addChunk k _ hk =>
      cases hg
      obtain ⟨ht, hc, y, hy, hf⟩ := hf
      have hfd : u.fds = [y] := (hd (by simp [hf])).trans hf
      have hnone : u.mapped[m.chunkCount - 1]? = none := by
        rw [hv, hc]
        simp [Phase.sees, Phase.has, show ¬n - 1 < k by omega]
      refine ⟨{ u with pc := .alloc .serve, mapped := u.mapped.insert (m.chunkCount - 1) y }, ?_⟩
      simp only [Subscriber.act]
      rw [if_neg (by simp [ht, hf]), hfd]
      exact congrArg (Option.map _) (mapChunk_some hnone)
    | revoke hidx =>
      cases hg
      have hmem : m.chunkIdx ∈ u.mapped := by
        rw [Std.ExtTreeMap.mem_iff_isSome_getElem?, hv, hf.2]
        simp [Phase.sees, Phase.has, hidx, hidx.trans_le hn]
      exact ⟨_, by simp only [Subscriber.act, hf.1, unmapChunk, if_pos hmem]; rfl⟩
    | remap hidx =>
      cases hg
      obtain ⟨ht, hc, y, hy, hf⟩ := hf
      have hfd : u.fds = [y] := (hd (by simp [hf])).trans hf
      have hnone : u.mapped[m.chunkIdx]? = none := by
        rw [hv, hc]
        simp [Phase.sees, Phase.has]
      refine ⟨{ u with pc := .reply .serve, mapped := u.mapped.insert m.chunkIdx y }, ?_⟩
      simp only [Subscriber.act, ht]
      rw [hfd]
      exact congrArg (Option.map _) (mapChunk_some hnone)
    | go =>
      cases hg
      exact ⟨_, by simp only [Subscriber.act, show m.type = .go from hf]; rfl⟩

/-- A subscriber that is busy can go on, or it is done. -/
theorem Session.busy_step (h : Session s x) {i : Fin c.nsub} (hroom : Roomy c (s.subs i))
    (hfit : ∀ g, (s.subs i).pc = .alloc g → s.bump + allocLen ≤ s.total) {n : Nat} {p : Phase} {t : MsgType} {idx : Nat} {p' : Phase}
    (hx : x i = .busy n p t idx p') : (∃ s', Step s s') ∨ ((s.subs i).pc = p'.pc ∧ (s.subs i).acks = if t = .go then 0 else 1) := by
  have hrel := h.rel i
  rw [hx] at hrel
  cases hrel with
  | sent hm hn hp hi ha hf hv =>
    rcases pc_cases p with ⟨g, hg⟩ | hg
    · exact .inl ⟨_, .recv (hp.trans hg) hi⟩
    · cases hm <;> cases hg
  | got _ _ _ hp =>
    obtain ⟨u', hu⟩ := (hx ▸ h.rel i).act_some hp
    exact .inl ⟨_, .act hp hu⟩
  | working _ _ _ hp =>
    rcases hp with hp | ⟨-, hp | ⟨r, hp⟩⟩
    · exact .inl ⟨_, .reply hp⟩
    · exact .inl ⟨_, .alloc hp (hfit _ hp)⟩
    · exact .inl ⟨_, .tag hp (hroom _ _ hp)⟩
  | done _ _ hp hi ha => exact .inr ⟨hp, ha⟩

/-- The chunks that a step adds. -/
def OwnerStep.adds {n : Nat} : OwnerStep n → Nat
  | addChunk _ => 1
  | _ => 0

/-- The owner's chunks and those it still adds are one more than at the start. -/
theorem reached_handles (h : Reached s) : s.handles.length + (s.rest.map OwnerStep.adds).sum = c.nchk + 1 := by
  induction h with
  | start => simp [ownerMain, broadcast, barrier, remapPhase, Function.comp_def, OwnerStep.adds]
  | step h hs ih =>
    cases hs with
    | addChunk hr =>
      simp only [hr, List.map_cons, List.sum_cons, OwnerStep.adds] at ih
      simp only [List.length_append, List.length_singleton]
      omega
    | remapBacking hr => simpa [hr, OwnerStep.adds] using ih
    | send hr => simpa [hr, OwnerStep.adds, State.setSub] using ih
    | await hr => simpa [hr, OwnerStep.adds, State.setSub] using ih
    | grow hr => simpa [hr, OwnerStep.adds] using ih
    | recv => exact ih
    | act => exact ih
    | alloc => exact ih
    | tag => exact ih
    | reply => exact ih

/-- The owner never holds so many handles that there is no other. -/
theorem exists_new (h : Reached s) : ∃ y, y ∉ s.handles := by
  by_contra hall
  rw [not_exists] at hall
  have hsub : List.Subperm ((List.range 66).map (BitVec.ofNat 64)) s.handles :=
    List.subperm_of_subset (by decide) fun y _ => not_not.1 (hall y)
  have hle := hsub.length_le
  have hlen := reached_handles h
  have hfits := c.fits
  simp only [List.length_map, List.length_range] at hle
  omega

/-- While the segment has room for what is allocated, some process can take a step, until the owner verifies and so do all its subscribers. -/
theorem reached_progress (h : Reached s) (hfit : ∀ i g, (s.subs i).pc = .alloc g → s.bump + allocLen ≤ s.total) :
    (∃ s', Step s s') ∨ (s.rest = [.verify] ∧ ∀ i, (s.subs i).pc = .verify) := by
  obtain ⟨x, hx⟩ := reached_session h
  have hroom := reached_roomy h
  have ho := hx.order
  cases hr : s.rest with
  | nil =>
    rw [hr] at ho
    exact ho.elim
  | cons o rest =>
    rw [hr] at ho
    cases o with
    | addChunk idx =>
      obtain ⟨y, hy⟩ := exists_new h
      exact .inl ⟨_, .addChunk (x := fun _ => 0) hr hy⟩
    | send i t idx => exact .inl ⟨_, .send hr⟩
    | await i =>
      obtain ⟨n, p, t, idx, p', hxi, ht, -⟩ := ho
      rcases hx.busy_step (hroom i) (hfit i) hxi with hs | ⟨-, ha⟩
      · exact .inl hs
      · rw [if_neg ht] at ha
        exact .inl ⟨_, .await hr ha⟩
    | grow => exact .inl ⟨_, .grow hr⟩
    | remapBacking idx toHost =>
      obtain ⟨y, hy⟩ := exists_new h
      exact .inl ⟨_, .remapBacking hr (List.getElem?_eq_getElem ho.1) hy⟩
    | verify =>
      obtain ⟨rfl, hgo⟩ := ho
      by_cases hall : ∀ i, (s.subs i).pc = .verify
      · exact .inr ⟨rfl, hall⟩
      · obtain ⟨i, hi⟩ := not_forall.1 hall
        obtain ⟨n, p, idx, p', hxi⟩ := hgo i
        rcases hx.busy_step (hroom i) (hfit i) hxi with hs | ⟨hp, -⟩
        · exact .inl hs
        · have hrel := hx.rel i
          rw [hxi] at hrel
          cases hrel.moves
          exact absurd hp hi

end Shared

end Vmem
