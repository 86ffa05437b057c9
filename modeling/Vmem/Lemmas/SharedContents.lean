import Vmem.Lemmas.SharedRuns

/-!
# What the segment holds

Where the regions lie and what is in them, in every state of a run (`Kept`).
-/

namespace Vmem

namespace Shared

variable {c : Config} {s s' : State c} {x : Fin c.nsub → Ghost}

/-- The regions lie apart, below `bump`, and hold their tags once they are written. -/
structure Kept (s : State c) : Prop where
  grow : .grow ∈ s.rest → s.total = c.chunk * c.nchk
  grown : .grow ∉ s.rest → s.total = c.chunk * (c.nchk + 1)
  bump : s.bump ≤ s.total
  below : ∀ r ∈ s.allocs, r.off + r.len ≤ s.bump
  apart : s.allocs.Pairwise fun r r' => r.off + r.len ≤ r'.off
  tagged : ∀ r ∈ s.allocs, (∃ i g, (s.subs i).pc = .tag g r) ∨ s.Holds r
  writes : ∀ i g r, (s.subs i).pc = .tag g r → r ∈ s.allocs

/-- A word of the segment is in the chunk that its offset falls into. -/
theorem word_eq (s : State c) (o : Nat) : s.word o = s.handles[o / c.chunk]?.map fun h => s.mem h (o % c.chunk / 4) := rfl

/-- A word lies where its offset says. -/
theorem word_offset {o : Nat} (h4 : 4 ∣ o) : o / c.chunk * c.chunk + 4 * (o % c.chunk / 4) = o := by
  rw [Nat.mul_div_cancel' ((Nat.dvd_mod_iff c.words).2 h4), Nat.div_add_mod']

/-- Words stay where each chunk keeps its contents. -/
theorem word_of {o : Nat} {w : BitVec 32}
    (h : ∀ (q : Nat) (y : Handle), s.handles[q]? = some y → ∃ y', s'.handles[q]? = some y' ∧ s'.mem y' = s.mem y)
    (hw : s.word o = some w) : s'.word o = some w := by
  rw [word_eq] at hw ⊢
  obtain ⟨y, hy, rfl⟩ := Option.map_eq_some_iff.1 hw
  obtain ⟨y', hy', hmem⟩ := h _ y hy
  rw [hy', Option.map_some, hmem]

/-- Where a subscriber goes with a message. -/
def Stage.next : Stage → Pc
  | header => .alloc .addChunk
  | addChunk => .alloc .serve
  | serve => .reply .serve

/-- What a message does leads to the next stage, or to the end. -/
theorem act_next {u u' : Subscriber} {g : Stage} {m : Msg} (hu : u.act g m = some u') :
    u'.inbox = u.inbox ∧ (u'.pc = g.next ∨ (g = .serve ∧ u'.pc = .verify)) := by
  cases g with
  | header =>
    obtain ⟨mp, -, rfl⟩ := Option.map_eq_some_iff.1 hu
    exact ⟨rfl, .inl rfl⟩
  | addChunk =>
    simp only [Subscriber.act] at hu
    split at hu
    · cases hu
    · obtain ⟨y, -, hu⟩ := Option.bind_eq_some_iff.1 hu
      obtain ⟨mp, -, rfl⟩ := Option.map_eq_some_iff.1 hu
      exact ⟨rfl, .inl rfl⟩
  | serve =>
    simp only [Subscriber.act] at hu
    split at hu
    · cases hu
      exact ⟨rfl, .inr ⟨rfl, rfl⟩⟩
    · obtain ⟨mp, -, rfl⟩ := Option.map_eq_some_iff.1 hu
      exact ⟨rfl, .inl rfl⟩
    · obtain ⟨y, -, hu⟩ := Option.bind_eq_some_iff.1 hu
      obtain ⟨mp, -, rfl⟩ := Option.map_eq_some_iff.1 hu
      exact ⟨rfl, .inl rfl⟩
    · cases hu

/-- It does not lead to a write. -/
theorem act_pc {u u' : Subscriber} {g : Stage} {m : Msg} (hu : u.act g m = some u') (g' : Stage) (r : Region) : u'.pc ≠ .tag g' r := by
  rcases (act_next hu).2 with hp | ⟨-, hp⟩
  · cases g <;> simp [hp, Stage.next]
  · simp [hp]

/-- Who writes a region. -/
theorem tag_update {i : Fin c.nsub} {u : Subscriber} (hu : ∀ g r, (s.subs i).pc = .tag g r ↔ u.pc = .tag g r) (j : Fin c.nsub) (g : Stage)
    (r : Region) : (Function.update s.subs i u j).pc = .tag g r ↔ (s.subs j).pc = .tag g r := by
  by_cases hj : j = i
  · subst hj
    rw [Function.update_self]
    exact (hu g r).symm
  · rw [Function.update_of_ne hj]

/-- The regions are kept where neither they nor the words change. -/
theorem Kept.of_same (h : Kept s) (hrest : .grow ∈ s'.rest ↔ .grow ∈ s.rest) (ht : s'.total = s.total) (hb : s'.bump = s.bump)
    (ha : s'.allocs = s.allocs) (hw : ∀ o w, s.word o = some w → s'.word o = some w)
    (hp : ∀ i g r, (s'.subs i).pc = .tag g r ↔ (s.subs i).pc = .tag g r) : Kept s' := by
  refine ⟨fun hg => ht.trans (h.grow (hrest.1 hg)), fun hg => ht.trans (h.grown fun hs => hg (hrest.2 hs)),
    by rw [hb, ht]; exact h.bump, by rw [ha, hb]; exact h.below, by rw [ha]; exact h.apart, fun r hr => ?_,
    fun i g r hi => by rw [ha]; exact h.writes i g r ((hp i g r).1 hi)⟩
  rw [ha] at hr
  rcases h.tagged r hr with ⟨i, g, hi⟩ | hall
  · exact .inl ⟨i, g, (hp i g r).2 hi⟩
  · exact .inr fun o h4 hlo hhi => hw o _ (hall o h4 hlo hhi)

/-- A new region lies behind the others. -/
theorem Kept.alloc (h : Kept s) {i : Fin c.nsub} {g : Stage} (hp : (s.subs i).pc = .alloc g) (hf : s.bump + allocLen ≤ s.total) :
    Kept (State.setSub { s with bump := s.bump + allocLen, allocs := s.allocs ++ [⟨s.bump, allocLen, tagOf g (c.pid i)⟩] } i
      { s.subs i with pc := .tag g ⟨s.bump, allocLen, tagOf g (c.pid i)⟩ }) := by
  refine ⟨h.grow, h.grown, hf, fun r hr => ?_, ?_, fun r hr => ?_, fun j g' r hj => ?_⟩
  · rcases List.mem_append.1 hr with hr | hr
    · exact (h.below r hr).trans (Nat.le_add_right _ _)
    · rw [List.mem_singleton.1 hr]
      exact le_rfl
  · refine List.pairwise_append.2 ⟨h.apart, List.pairwise_singleton _ _, fun r hr r' hr' => ?_⟩
    rw [List.mem_singleton.1 hr']
    exact h.below r hr
  · rcases List.mem_append.1 hr with hr | hr
    · refine (h.tagged r hr).imp ?_ fun hall => hall
      rintro ⟨j, g', hj⟩
      refine ⟨j, g', ?_⟩
      have hne : j ≠ i := by
        rintro rfl
        rw [hp] at hj
        cases hj
      exact (congrArg Subscriber.pc (Function.update_of_ne hne _ _)).trans hj
    · rw [List.mem_singleton.1 hr]
      exact .inl ⟨i, g, by simp [State.setSub]⟩
  · refine List.mem_append.2 ?_
    by_cases hne : j = i
    · subst hne
      have hj : Pc.tag g ⟨s.bump, allocLen, tagOf g (c.pid j)⟩ = .tag g' r := (congrArg Subscriber.pc (Function.update_self _ _ _)).symm.trans hj
      cases hj
      exact .inr (List.mem_singleton_self _)
    · exact .inl (h.writes j g' r ((congrArg Subscriber.pc (Function.update_of_ne hne _ _)).symm.trans hj))

/-- Two regions that meet are the same. -/
theorem Kept.region_eq (h : Kept s) {r r' : Region} (hr : r ∈ s.allocs) (hr' : r' ∈ s.allocs) {o : Nat} (ho : r.off ≤ o ∧ o < r.off + r.len)
    (ho' : r'.off ≤ o ∧ o < r'.off + r'.len) : r = r' := by
  by_contra hne
  have hapart : s.allocs.Pairwise fun r r' => r.off + r.len ≤ r'.off ∨ r'.off + r'.len ≤ r.off := h.apart.imp fun hle => .inl hle
  have : Std.Symm fun r r' : Region => r.off + r.len ≤ r'.off ∨ r'.off + r'.len ≤ r.off := ⟨fun _ _ hle => hle.symm⟩
  rcases hapart.forall hr hr' hne with hle | hle <;> omega

/-- A region is written through mappings that are the owner's. -/
theorem Kept.tag (h : Kept s) (hn : s.handles.Nodup) {i : Fin c.nsub} {g : Stage} {r : Region} (hp : (s.subs i).pc = .tag g r)
    (hm : ∀ o, r.off ≤ o → o < r.off + r.len → o / c.chunk ∈ (s.subs i).mapped)
    (hown : ∀ (q : Nat) (y : Handle), (s.subs i).mapped[q]? = some y → s.handles[q]? = some y) :
    Kept (State.setSub { s with mem := State.fill c (s.subs i).mapped r s.mem } i { s.subs i with pc := .reply g }) := by
  have hmem := h.writes i g r hp
  refine ⟨h.grow, h.grown, h.bump, h.below, h.apart, fun r' hr' => ?_, fun j g' r' hj => ?_⟩
  · by_cases hrr : r' = r
    · subst hrr
      refine .inr fun o h4 hlo hhi => ?_
      obtain ⟨y, hy⟩ := Option.isSome_iff_exists.1 ((Std.ExtTreeMap.isSome_getElem?_eq_contains).trans (hm o hlo hhi))
      rw [word_eq]
      show (s.handles[o / c.chunk]?).map _ = _
      rw [hown _ y hy, Option.map_some]
      refine congrArg some (if_pos (List.any_eq_true.2 ⟨(o / c.chunk, y), Std.ExtTreeMap.mem_toList_iff_getElem?_eq_some.2 hy, ?_⟩))
      simp [word_offset h4, hlo, hhi]
    · refine (h.tagged r' hr').imp ?_ fun hall o h4 hlo hhi => ?_
      · rintro ⟨j, g', hj⟩
        refine ⟨j, g', ?_⟩
        have hne : j ≠ i := by
          rintro rfl
          rw [hp] at hj
          cases hj
          exact hrr rfl
        exact (congrArg Subscriber.pc (Function.update_of_ne hne _ _)).trans hj
      · have hword := hall o h4 hlo hhi
        rw [word_eq] at hword
        obtain ⟨y, hy, hw⟩ := Option.map_eq_some_iff.1 hword
        rw [word_eq]
        show (s.handles[o / c.chunk]?).map _ = _
        rw [hy, Option.map_some, ← hw]
        refine congrArg some (if_neg fun hany => ?_)
        obtain ⟨⟨q, y'⟩, hq, hin⟩ := List.any_eq_true.1 hany
        simp only [Bool.and_eq_true, beq_iff_eq, decide_eq_true_eq] at hin
        obtain ⟨⟨rfl, hlo'⟩, hhi'⟩ := hin
        have hq := hown q y' (Std.ExtTreeMap.mem_toList_iff_getElem?_eq_some.1 hq)
        obtain rfl : q = o / c.chunk := (List.getElem?_inj (List.getElem?_eq_some_iff.1 hq).1 hn).1 (hq.trans hy.symm)
        rw [word_offset h4] at hlo' hhi'
        exact hrr (h.region_eq hr' hmem ⟨hlo, hhi⟩ ⟨hlo', hhi'⟩)
  · by_cases hne : j = i
    · subst hne
      have hj : Pc.reply g = .tag g' r' := (congrArg Subscriber.pc (Function.update_self _ _ _)).symm.trans hj
      cases hj
    · exact h.writes j g' r' ((congrArg Subscriber.pc (Function.update_of_ne hne _ _)).symm.trans hj)

/-- The owner may have put a chunk elsewhere; its contents came with it. -/
theorem Kept.step (h : Kept s) (hS : Session s x) (hs : Step s s') : Kept s' := by
  have hsame {i : Fin c.nsub} {u : Subscriber} (h₀ : ∀ g r, (s.subs i).pc ≠ .tag g r) (h₁ : ∀ g r, u.pc ≠ .tag g r) (g : Stage)
      (r : Region) : (s.subs i).pc = .tag g r ↔ u.pc = .tag g r := ⟨fun h => absurd h (h₀ g r), fun h => absurd h (h₁ g r)⟩
  have hother {q : Nat} {k y : Handle} (hk : s.handles[q]? = some k) (hy : y ∉ s.handles) : k ≠ y := by
    rintro rfl
    exact hy (List.mem_of_getElem? hk)
  cases hs with
  | @addChunk idx rest y z hr hh =>
    refine h.of_same (by simp [hr]) rfl rfl rfl (fun o w => word_of fun q k hk => ⟨k, ?_, ?_⟩) fun _ _ _ => Iff.rfl
    · exact (List.getElem?_append_left (List.getElem?_eq_some_iff.1 hk).1).trans hk
    · exact Function.update_of_ne (hother hk hh) _ _
  | send hr =>
    exact h.of_same (by simp [hr, State.setSub]) rfl rfl rfl (fun _ _ hw => hw) (tag_update fun _ _ => Iff.rfl)
  | await hr ha =>
    exact h.of_same (by simp [hr, State.setSub]) rfl rfl rfl (fun _ _ hw => hw) (tag_update fun _ _ => Iff.rfl)
  | @grow rest hr =>
    have ho := hS.order
    rw [hr] at ho
    have ht : s.total = c.chunk * c.nchk := h.grow (by rw [hr]; exact List.mem_cons_self)
    refine ⟨fun hg => absurd hg ho.1, fun _ => rfl, Nat.mul_le_mul_left _ (Nat.le_succ _), fun r hr => ?_, h.apart, h.tagged, h.writes⟩
    exact ((h.below r hr).trans h.bump).trans ht.le
  | @remapBacking idx toHost rest y old hr hold hh =>
    refine h.of_same (by simp [hr]) rfl rfl rfl (fun o w => word_of fun q k hk => ?_) fun _ _ _ => Iff.rfl
    by_cases hq : q = idx
    · subst hq
      obtain rfl : old = k := Option.some.inj (hold.symm.trans hk)
      exact ⟨y, List.getElem?_set_self (List.getElem?_eq_some_iff.1 hk).1, Function.update_self _ _ _⟩
    · refine ⟨k, (List.getElem?_set_ne (Ne.symm hq)).trans hk, ?_⟩
      exact Function.update_of_ne (hother hk hh) _ _
  | recv hp hi =>
    exact h.of_same Iff.rfl rfl rfl rfl (fun _ _ hw => hw) (tag_update (hsame (by simp [hp]) (by simp)))
  | act hp hu =>
    refine h.of_same Iff.rfl rfl rfl rfl (fun _ _ hw => hw) (tag_update (hsame (by simp [hp]) ?_))
    exact act_pc hu
  | alloc hp hf => exact h.alloc hp hf
  | tag hp hm => exact h.tag hS.nodup hp hm fun q y hq => (hS.rel _).mapped hq
  | reply hp =>
    exact h.of_same Iff.rfl rfl rfl rfl (fun _ _ hw => hw) (tag_update (hsame (by simp [hp]) (by simp)))

/-- The regions are kept in every reached state. -/
theorem reached_kept (h : Reached s) : Kept s := by
  induction h with
  | start =>
    refine ⟨fun _ => rfl, fun hg => absurd (by simp [ownerMain]) hg, Nat.zero_le _, fun r hr => ?_, List.Pairwise.nil,
      fun r hr => ?_, fun i g r hi => ?_⟩
    · cases hr
    · cases hr
    · cases hi
  | step h hs ih =>
    obtain ⟨x, hx⟩ := reached_session h
    exact ih.step hx hs

/-- A subscriber that was told to go on has every chunk, and no one writes. -/
theorem Session.verify (h : Session s x) {i : Fin c.nsub} (hp : (s.subs i).pc = .verify) :
    Going (x i) ∧ ∀ q : Nat, (s.subs i).mapped[q]? = s.handles[q]? := by
  have hrel := h.rel i
  cases hx : x i with
  | idle p =>
    rw [hx] at hrel
    cases hrel with
    | idle _ hp' =>
      cases p with
      | gone k => exact absurd hx (h.still i k)
      | new => cases hp'.symm.trans hp
      | ready g k => cases hp'.symm.trans hp
      | revoked k idx => cases hp'.symm.trans hp
  | busy n p t idx p' =>
    rw [hx] at hrel
    cases hrel with
    | sent hm _ hp' => cases hm <;> cases hp'.symm.trans hp
    | got _ _ _ hp' => cases hp'.symm.trans hp
    | working _ _ _ hp' => simp [hp] at hp'
    | done hm _ hp' hi ha hv =>
      cases hm with
      | go =>
        refine ⟨⟨_, _, _, _, rfl⟩, fun q => (hv q).trans ?_⟩
        obtain rfl := h.full i _ _ _ _ hx
        by_cases hq : q < s.handles.length
        · simp [Phase.sees, Phase.has, hq]
        · simp [Phase.sees, Phase.has, hq]
      | header => cases hp'.symm.trans hp
      | addChunk => cases hp'.symm.trans hp
      | revoke => cases hp'.symm.trans hp
      | remap => cases hp'.symm.trans hp

/-- A subscriber that is quiet writes nothing. -/
theorem Rel.not_tag {hs : List Handle} {u : Subscriber} {y : Ghost} (h : Rel hs u y) (hy : Quiet y) (g : Stage) (r : Region) :
    u.pc ≠ .tag g r := by
  intro hp
  have hno : ∀ p : Phase, u.pc ≠ p.pc := pc_ne (by simp [hp]) (by simp [hp])
  cases h with
  | idle _ hp' => exact hno _ hp'
  | sent _ _ hp' => exact hno _ hp'
  | got _ _ _ hp' => cases hp'.symm.trans hp
  | working hm _ hg =>
    rcases hy with ⟨k, hk⟩ | ⟨n, q, idx, q', hk⟩
    · cases hk
    · cases hk
      cases hm
      cases hg
  | done _ _ hp' => exact hno _ hp'

end Shared

end Vmem
