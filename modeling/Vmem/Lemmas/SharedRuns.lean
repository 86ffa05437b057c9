import Vmem.Lemmas.SharedSubscribers

/-!
# The processes keep in step

In every state of a run the owner's remaining steps and the subscribers agree (`Session`).
-/

namespace Vmem

namespace Shared

variable {c : Config} {s s' : State c} {x : Fin c.nsub → Ghost}

/-- The processes are in step. -/
structure Session (s : State c) (x : Fin c.nsub → Ghost) : Prop where
  order : Ordered c s.rest s.handles.length x
  rel : ∀ i, Rel s.handles (s.subs i) (x i)
  calm : ∀ i, Going (x i) → ∀ j, Quiet (x j)
  full : ∀ (i : Fin c.nsub) (n : Nat) (p : Phase) (idx : Nat) (p' : Phase), x i = .busy n p .go idx p' → n = s.handles.length
  still : ∀ (i : Fin c.nsub) (k : Nat), x i ≠ .idle (.gone k)
  nodup : s.handles.Nodup
  due : ∀ (i : Fin c.nsub) (n : Nat) (p : Phase) (t : MsgType) (idx : Nat) (p' : Phase), x i = .busy n p t idx p' → Due c s.rest n t

/-- Only the growth of the segment changes what is due. -/
theorem Due.tail {o : OwnerStep c.nsub} {r : List (OwnerStep c.nsub)} {n : Nat} {t : MsgType} (h : Due c (o :: r) n t) (ho : .grow ≠ o) :
    Due c r n t := by simpa [Due, ho] using h

/-- What holds of every subscriber holds with one of them changed. -/
theorem forall_update {P : Fin c.nsub → Subscriber → Ghost → Prop} {subs : Fin c.nsub → Subscriber} (h : ∀ i, P i (subs i) (x i))
    {i : Fin c.nsub} {u : Subscriber} {y : Ghost} (hu : P i u y) : ∀ j, P j (Function.update subs i u j) (Function.update x i y j) := by
  intro j
  by_cases hj : j = i
  · subst hj
    simpa using hu
  · simpa [hj] using h j

/-- A step of a subscriber alone. -/
theorem Session.local (h : Session s x) {i : Fin c.nsub} {u : Subscriber} (hu : Rel s.handles u (x i)) : Session (s.setSub i u) x := by
  refine ⟨h.order, fun j => ?_, h.calm, h.full, h.still, h.nodup, h.due⟩
  have hj := forall_update (P := fun _ u y => Rel s.handles u y) (i := i) h.rel hu j
  rwa [Function.update_eq_self] at hj

/-- The message that the owner sends fits its chunks. -/
theorem fits_msg {p p' : Phase} {t : MsgType} {idx : Nat} (hm : Moves s.handles.length p t idx p') :
    Fits s.handles s.handles.length idx (s.msg idx t) t := by
  cases hm with
  | header => exact ⟨rfl, List.take_length.symm⟩
  | addChunk _ hk =>
    obtain ⟨y, hy⟩ : ∃ y, s.handles[s.handles.length - 1]? = some y := ⟨_, List.getElem?_eq_getElem (by omega)⟩
    refine ⟨rfl, rfl, y, hy, ?_⟩
    rw [State.msg, List.getLast?_eq_getElem?, hy]
    rfl
  | revoke => exact ⟨rfl, rfl⟩
  | remap hidx =>
    obtain ⟨y, hy⟩ : ∃ y, s.handles[idx]? = some y := ⟨_, List.getElem?_eq_getElem hidx⟩
    refine ⟨rfl, rfl, y, hy, ?_⟩
    rw [State.msg, hy]
    rfl
  | go => rfl

/-- A message that is sent keeps the processes in step. -/
theorem Session.send (h : Session s x) {i : Fin c.nsub} {t : MsgType} {idx : Nat} {rest : List (OwnerStep c.nsub)}
    (hr : s.rest = .send i t idx :: rest) :
    ∃ x', Session (State.setSub { s with rest } i { s.subs i with inbox := (s.subs i).inbox ++ [s.msg idx t] }) x' := by
  have ho := h.order
  rw [hr] at ho
  obtain ⟨p, p', hx, hm, hd, hgo, hng, ho⟩ := ho
  have hrel := h.rel i
  rw [hx] at hrel
  refine ⟨_, ho, forall_update (P := fun _ u y => Rel s.handles u y) h.rel ?_, fun j hj j' => ?_, fun j n q idx' q' hj => ?_,
    fun j k hj => ?_, h.nodup, fun j n q t' idx' q' hj => ?_⟩
  · cases hrel with
    | idle hn hp hi ha hv => exact .sent hm le_rfl hp (by simp [hi]) ha (fits_msg hm) hv
  · have ht : t = .go := by
      by_contra ht
      by_cases hji : j = i
      · subst hji
        obtain ⟨n, q, idx', q', hj⟩ := hj
        rw [Function.update_self] at hj
        cases hj
        exact ht rfl
      · rw [Function.update_of_ne hji] at hj
        exact hng ht j hj
    subst ht
    by_cases hji : j' = i
    · subst hji
      rw [Function.update_self]
      exact .inr ⟨_, _, _, _, rfl⟩
    · rw [Function.update_of_ne hji]
      exact hgo rfl j'
  · by_cases hji : j = i
    · subst hji
      rw [Function.update_self] at hj
      cases hj
      rfl
    · rw [Function.update_of_ne hji] at hj
      exact h.full j n q idx' q' hj
  · by_cases hji : j = i
    · subst hji
      rw [Function.update_self] at hj
      cases hj
    · rw [Function.update_of_ne hji] at hj
      exact h.still j k hj
  · by_cases hji : j = i
    · subst hji
      rw [Function.update_self] at hj
      cases hj
      exact hd
    · rw [Function.update_of_ne hji] at hj
      exact (hr ▸ h.due j n q t' idx' q' hj).tail (by simp)

/-- So does an answer that is waited for. -/
theorem Session.await (h : Session s x) {i : Fin c.nsub} {rest : List (OwnerStep c.nsub)} {n : Nat} (hr : s.rest = .await i :: rest)
    (ha : (s.subs i).acks = n + 1) : ∃ x', Session (State.setSub { s with rest } i { s.subs i with acks := n }) x' := by
  have ho := h.order
  rw [hr] at ho
  obtain ⟨m, p, t, idx, p', hx, ht, ho⟩ := ho
  have hrel := h.rel i
  rw [hx] at hrel
  have hdone : Rel s.handles { s.subs i with acks := n } (.idle p') ∧ ∀ k, p' ≠ .gone k := by
    cases hrel with
    | sent _ _ _ _ ha' => simp [ha] at ha'
    | got _ _ _ _ _ ha' => simp [ha] at ha'
    | working _ _ _ _ _ ha' => simp [ha] at ha'
    | done hm hn hp hi ha' hv =>
      rw [if_neg ht, ha] at ha'
      refine ⟨.idle (hm.size_eq.le.trans hn) hp hi (Nat.succ.inj ha') hv, fun k hk => ?_⟩
      subst hk
      cases hm
      exact ht rfl
  have hbusy {j : Fin c.nsub} (hj : Going (x j)) : False := by
    rcases h.calm j hj i with ⟨k, hk⟩ | ⟨n', q, idx', q', hk⟩
    · rw [hx] at hk
      cases hk
    · rw [hx] at hk
      cases hk
      exact ht rfl
  have hgoing {j : Fin c.nsub} (hj : Going (Function.update x i (.idle p') j)) : False := by
    by_cases hji : j = i
    · subst hji
      rw [Function.update_self] at hj
      exact not_going _ hj
    · rw [Function.update_of_ne hji] at hj
      exact hbusy hj
  refine ⟨_, ho, forall_update (P := fun _ u y => Rel s.handles u y) h.rel hdone.1, fun j hj => (hgoing hj).elim,
    fun j n q idx' q' hj => (hgoing (j := j) ⟨_, _, _, _, hj⟩).elim, fun j k hj => ?_, h.nodup, fun j n q t' idx' q' hj => ?_⟩
  · by_cases hji : j = i
    · subst hji
      rw [Function.update_self] at hj
      cases hj
      exact hdone.2 k rfl
    · rw [Function.update_of_ne hji] at hj
      exact h.still j k hj
  · by_cases hji : j = i
    · subst hji
      rw [Function.update_self] at hj
      cases hj
    · rw [Function.update_of_ne hji] at hj
      exact (hr ▸ h.due j n q t' idx' q' hj).tail (by simp)

/-- Every step keeps the processes in step. -/
theorem Session.step (h : Session s x) (hs : Step s s') : ∃ x', Session s' x' := by
  have ho := h.order
  cases hs with
  | addChunk hr hh =>
    rw [hr] at ho
    obtain ⟨-, hng, ho⟩ := ho
    refine ⟨x, by simpa using ho, fun i => (h.rel i).append _, h.calm, fun i n p idx p' hx => ?_, h.still, ?_,
      fun i n p t idx p' hx => (hr ▸ h.due i n p t idx p' hx).tail (by simp)⟩
    · exact (hng i ⟨_, _, _, _, hx⟩).elim
    · refine List.nodup_append.2 ⟨h.nodup, List.nodup_singleton _, fun a ha b hb hab => hh ?_⟩
      rwa [hab, List.mem_singleton.1 hb] at ha
  | send hr => exact h.send hr
  | await hr ha => exact h.await hr ha
  | grow hr =>
    rw [hr] at ho
    refine ⟨x, ho.2.2, h.rel, h.calm, h.full, h.still, h.nodup, fun i n p t idx p' hx => ?_⟩
    obtain ⟨k, hk⟩ := ho.2.1 i
    cases hx.symm.trans hk
  | @remapBacking idx toHost rest y old hr hold hh =>
    rw [hr] at ho
    obtain ⟨-, hall, ho⟩ := ho
    refine ⟨x, by simpa using ho, fun i => ?_, h.calm, fun i n p idx p' hx => ?_, h.still, h.nodup.set hh,
      fun i n p t idx p' hx => (hr ▸ h.due i n p t idx p' hx).tail (by simp)⟩
    · have hrel := h.rel i
      rw [hall i] at hrel ⊢
      cases hrel with
      | idle hn hp hi ha hv =>
        refine .idle (by simpa using hn) hp hi ha fun q => (hv q).trans ?_
        unfold Phase.sees
        split
        · rename_i hq
          have hne : q ≠ idx := (of_decide_eq_true hq).2
          exact (List.getElem?_set_ne hne.symm).symm
        · rfl
    · rw [hall i] at hx
      cases hx
  | recv hp hi => exact ⟨x, h.local ((h.rel _).recv hp hi)⟩
  | act hp hu => exact ⟨x, h.local ((h.rel _).act hp hu)⟩
  | @alloc i g hp hf =>
    have hS : Session { s with bump := s.bump + allocLen, allocs := s.allocs ++ [⟨s.bump, allocLen, tagOf g (c.pid i)⟩] } x :=
      ⟨h.order, h.rel, h.calm, h.full, h.still, h.nodup, h.due⟩
    exact ⟨x, hS.local ((h.rel i).work (.inl hp) (.inl ⟨_, rfl⟩))⟩
  | @tag i g r hp hm =>
    have hS : Session { s with mem := State.fill c (s.subs i).mapped r s.mem } x := ⟨h.order, h.rel, h.calm, h.full, h.still, h.nodup, h.due⟩
    exact ⟨x, hS.local ((h.rel i).work (.inr ⟨r, hp⟩) (.inr rfl))⟩
  | reply hp => exact ⟨x, h.local ((h.rel _).reply hp)⟩

/-- The processes are in step in every reached state. -/
theorem reached_session (h : Reached s) : ∃ x, Session s x := by
  induction h with
  | start =>
    refine ⟨fun _ => .idle .new, ordered_ownerMain c, fun i => .idle (Nat.zero_le _) rfl rfl rfl fun q => by simp [Phase.sees, Phase.has],
      fun i hi => (not_going _ hi).elim, fun i n p idx p' hi => ?_, fun i k hi => ?_, List.nodup_nil,
      fun i n p t idx p' hi => ?_⟩
    · cases hi
    · cases hi
    · cases hi
  | step h hs ih =>
    obtain ⟨x, hx⟩ := ih
    exact hx.step hs

/-- A chunk that is mapped is one of the owner's, in its place. -/
theorem Rel.mapped {hs : List Handle} {u : Subscriber} {y : Ghost} (h : Rel hs u y) {q : Nat} {k : Handle} (hk : u.mapped[q]? = some k) :
    hs[q]? = some k := by
  have hsees {p : Phase} (hv : u.mapped[q]? = p.sees hs q) : hs[q]? = some k := by
    rw [hk] at hv
    unfold Phase.sees at hv
    split at hv
    · exact hv.symm
    · cases hv
  cases h with
  | idle _ _ _ _ hv => exact hsees (hv q)
  | sent _ _ _ _ _ _ hv => exact hsees (hv q)
  | got _ _ _ _ _ _ _ _ hv => exact hsees (hv q)
  | working _ _ _ _ _ _ hv => exact hsees (hv q)
  | done _ _ _ _ _ hv => exact hsees (hv q)

end Shared

end Vmem
