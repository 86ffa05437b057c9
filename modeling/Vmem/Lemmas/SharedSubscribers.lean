import Vmem.Lemmas.SharedOrder

/-!
# What a subscriber does

A subscriber has what the owner expects of it (`Rel`), and keeps to that with each of its own steps.
-/

namespace Vmem

namespace Shared

/-- The message that makes this of a subscriber, for these handles. -/
def Fits (hs : List Handle) (n idx : Nat) (m : Msg) : MsgType → Prop
  | .header => m.type = .header ∧ m.fds = hs.take n
  | .addChunk => m.type = .addChunk ∧ m.chunkCount = n ∧ ∃ h, hs[n - 1]? = some h ∧ m.fds = [h]
  | .revoke => m.type = .revoke ∧ m.chunkIdx = idx
  | .remap => m.type = .remap ∧ m.chunkIdx = idx ∧ ∃ h, hs[idx]? = some h ∧ m.fds = [h]
  | .go => m.type = .go

/-- A subscriber is as the owner expects. -/
inductive Rel (hs : List Handle) (u : Subscriber) : Ghost → Prop
  | idle {p : Phase} (hn : p.size ≤ hs.length) (hp : u.pc = p.pc) (hi : u.inbox = []) (ha : u.acks = 0) (hv : ∀ q, u.mapped[q]? = p.sees hs q) :
      Rel hs u (.idle p)
  | sent {n : Nat} {p : Phase} {t : MsgType} {idx : Nat} {p' : Phase} {m : Msg} (hm : Moves n p t idx p') (hn : n ≤ hs.length)
      (hp : u.pc = p.pc) (hi : u.inbox = [m]) (ha : u.acks = 0) (hf : Fits hs n idx m t) (hv : ∀ q, u.mapped[q]? = p.sees hs q) :
      Rel hs u (.busy n p t idx p')
  | got {n : Nat} {p : Phase} {t : MsgType} {idx : Nat} {p' : Phase} {m : Msg} {g : Stage} (hm : Moves n p t idx p') (hn : n ≤ hs.length)
      (hg : p.pc = .wait g) (hp : u.pc = .got g m) (hi : u.inbox = []) (ha : u.acks = 0) (hf : Fits hs n idx m t)
      (hd : m.fds ≠ [] → u.fds = m.fds) (hv : ∀ q, u.mapped[q]? = p.sees hs q) : Rel hs u (.busy n p t idx p')
  | working {n : Nat} {p : Phase} {t : MsgType} {idx : Nat} {p' : Phase} {g : Stage} (hm : Moves n p t idx p') (hn : n ≤ hs.length)
      (hg : p'.pc = .wait g) (hp : u.pc = .reply g ∨ ((t = .header ∨ t = .addChunk) ∧ (u.pc = .alloc g ∨ ∃ r, u.pc = .tag g r)))
      (hi : u.inbox = []) (ha : u.acks = 0) (hv : ∀ q, u.mapped[q]? = p'.sees hs q) : Rel hs u (.busy n p t idx p')
  | done {n : Nat} {p : Phase} {t : MsgType} {idx : Nat} {p' : Phase} (hm : Moves n p t idx p') (hn : n ≤ hs.length)
      (hp : u.pc = p'.pc) (hi : u.inbox = []) (ha : u.acks = if t = .go then 0 else 1) (hv : ∀ q, u.mapped[q]? = p'.sees hs q) :
      Rel hs u (.busy n p t idx p')

section

variable {hs hs' : List Handle} {u : Subscriber} {n idx : Nat} {p p' : Phase} {t : MsgType}

/-- A message adds chunks or none. -/
theorem Moves.size_le (h : Moves n p t idx p') : p.size ≤ n := by
  cases h with
  | header => exact Nat.zero_le _
  | addChunk idx h => exact h ▸ Nat.le_succ _
  | revoke => exact le_rfl
  | remap => exact le_rfl
  | go => exact le_rfl

/-- After it the subscriber knows of all chunks. -/
theorem Moves.size_eq (h : Moves n p t idx p') : p'.size = n := by cases h <;> rfl

/-- The owner has one more chunk. -/
theorem sees_append (h : p.size ≤ hs.length) (hn : Handle) (q : Nat) : p.sees (hs ++ [hn]) q = p.sees hs q := by
  unfold Phase.sees
  split
  · rename_i hq
    exact List.getElem?_append_left ((Phase.lt_of_has hq).trans_le h)
  · rfl

/-- A message that fits still fits with another chunk. -/
theorem Fits.append {m : Msg} (h : Fits hs n idx m t) (hn : n ≤ hs.length) (x : Handle) : Fits (hs ++ [x]) n idx m t := by
  have hold {q : Nat} {y : Handle} (hy : hs[q]? = some y) : (hs ++ [x])[q]? = some y := by
    rw [List.getElem?_append_left (List.getElem?_eq_some_iff.1 hy).1, hy]
  cases t with
  | header => exact ⟨h.1, by rw [h.2, List.take_append_of_le_length hn]⟩
  | addChunk =>
    obtain ⟨ht, hc, y, hy, hf⟩ := h
    exact ⟨ht, hc, y, hold hy, hf⟩
  | revoke => exact h
  | remap =>
    obtain ⟨ht, hc, y, hy, hf⟩ := h
    exact ⟨ht, hc, y, hold hy, hf⟩
  | go => exact h

/-- A subscriber is as expected with another chunk. -/
theorem Rel.append {x : Ghost} (h : Rel hs u x) (y : Handle) : Rel (hs ++ [y]) u x := by
  have hlen {k : Nat} (hk : k ≤ hs.length) : k ≤ (hs ++ [y]).length := by
    rw [List.length_append]
    exact hk.trans (Nat.le_add_right _ _)
  cases h with
  | idle hn hp hi ha hv => exact .idle (hlen hn) hp hi ha fun q => (hv q).trans (sees_append hn y q).symm
  | sent hm hn hp hi ha hf hv =>
    exact .sent hm (hlen hn) hp hi ha (hf.append hn y) fun q => (hv q).trans (sees_append (hm.size_le.trans hn) y q).symm
  | got hm hn hg hp hi ha hf hd hv =>
    exact .got hm (hlen hn) hg hp hi ha (hf.append hn y) hd fun q => (hv q).trans (sees_append (hm.size_le.trans hn) y q).symm
  | working hm hn hg hp hi ha hv =>
    exact .working hm (hlen hn) hg hp hi ha fun q => (hv q).trans (sees_append (hm.size_eq.le.trans hn) y q).symm
  | done hm hn hp hi ha hv =>
    exact .done hm (hlen hn) hp hi ha fun q => (hv q).trans (sees_append (hm.size_eq.le.trans hn) y q).symm

/-- No phase is in the middle of a message. -/
theorem pc_cases (p : Phase) : (∃ g, p.pc = .wait g) ∨ p.pc = .verify := by
  cases p with
  | new => exact .inl ⟨_, rfl⟩
  | ready g k => exact .inl ⟨_, rfl⟩
  | revoked k idx => exact .inl ⟨_, rfl⟩
  | gone k => exact .inr rfl

/-- What the owner waits for is a move that it sent. -/
theorem Rel.moves (h : Rel hs u (.busy n p t idx p')) : Moves n p t idx p' := by
  cases h with
  | sent hm => exact hm
  | got hm => exact hm
  | working hm => exact hm
  | done hm => exact hm

/-- Between two messages a subscriber waits or has ended. -/
theorem pc_ne {q : Pc} (hw : ∀ g, q ≠ .wait g) (hv : q ≠ .verify) (p : Phase) : q ≠ p.pc := by
  rintro rfl
  rcases pc_cases p with ⟨g, hg⟩ | hg
  · exact hw g hg
  · exact hv hg

/-- A message that is received is the one that was sent. -/
theorem Rel.recv {x : Ghost} (h : Rel hs u x) {g : Stage} {m : Msg} {q : List Msg} (hp : u.pc = .wait g) (hi : u.inbox = m :: q) :
    Rel hs { u with pc := .got g m, inbox := q, fds := if m.fds = [] then u.fds else m.fds } x := by
  cases h with
  | idle _ _ hi' => simp [hi] at hi'
  | sent hm hn hp' hi' ha hf hv =>
    obtain ⟨rfl, rfl⟩ : m = _ ∧ q = [] := by simpa [hi] using hi'
    exact .got hm hn (hp'.symm.trans hp) rfl rfl ha hf (fun hne => if_neg hne) hv
  | got _ _ _ _ hi' => simp [hi] at hi'
  | working _ _ _ _ hi' => simp [hi] at hi'
  | done _ _ _ hi' => simp [hi] at hi'

/-- An answer ends what the owner waits for. -/
theorem Rel.reply {x : Ghost} (h : Rel hs u x) {g : Stage} (hp : u.pc = .reply g) :
    Rel hs { u with pc := .wait g, acks := u.acks + 1 } x := by
  have hno (p : Phase) : p.pc ≠ .reply g := (pc_ne (by simp) (by simp) p).symm
  cases h with
  | idle _ hp' => exact absurd (hp'.symm.trans hp) (hno _)
  | sent _ _ hp' => exact absurd (hp'.symm.trans hp) (hno _)
  | got _ _ _ hp' => simp [hp] at hp'
  | @working n p t idx p' g' hm hn hg hp' hi ha hv =>
    obtain rfl : g = g' := by simpa [hp] using hp'
    refine .done hm hn hg.symm hi ?_ hv
    cases hm with
    | go => cases hg
    | _ => simp [ha]
  | done _ _ hp' => exact absurd (hp'.symm.trans hp) (hno _)

/-- Work between the message and the answer, which touches neither the mappings nor what is in flight. -/
theorem Rel.work {x : Ghost} (h : Rel hs u x) {g : Stage} (hp : u.pc = .alloc g ∨ ∃ r, u.pc = .tag g r) {pc : Pc}
    (hpc : (∃ r, pc = .tag g r) ∨ pc = .reply g) : Rel hs { u with pc } x := by
  have hno : ∀ p : Phase, u.pc ≠ p.pc := by
    rcases hp with hp | ⟨r, hp⟩
    · exact pc_ne (by simp [hp]) (by simp [hp])
    · exact pc_ne (by simp [hp]) (by simp [hp])
  cases h with
  | idle _ hp' => exact absurd hp' (hno _)
  | sent _ _ hp' => exact absurd hp' (hno _)
  | got _ _ _ hp' => rcases hp with hp | ⟨r, hp⟩ <;> simp [hp] at hp'
  | @working n p t idx p' g' hm hn hg hp' hi ha hv =>
    have hw : (t = .header ∨ t = .addChunk) ∧ g = g' := by
      rcases hp with hp | ⟨r, hp⟩ <;> simpa [hp] using hp'
    obtain ⟨ht, rfl⟩ := hw
    refine .working hm hn hg ?_ hi ha hv
    rcases hpc with hr | hr
    · exact .inr ⟨ht, .inr hr⟩
    · exact .inl hr
  | done _ _ hp' => exact absurd hp' (hno _)

/-- A chunk is mapped at its index. -/
theorem mapChunk_find {mp mp' : OrdMap Nat Handle} {h : Handle} (hm : mapChunk idx h mp = some mp') (q : Nat) :
    mp'[q]? = if q = idx then some h else mp[q]? := by
  unfold mapChunk at hm
  split at hm
  · cases hm
  · cases hm
    rw [OrdMap.getElem?_insert]

/-- Chunks are mapped from an index on. -/
theorem mapChunks_find : ∀ {hs : List Handle} {a : Nat} {mp mp' : OrdMap Nat Handle}, mapChunks a hs mp = some mp' → ∀ q,
    mp'[q]? = if a ≤ q ∧ q < a + hs.length then hs[q - a]? else mp[q]? := by
  intro hs
  induction hs with
  | nil =>
    intro a mp mp' hm q
    cases hm
    rw [if_neg (by simp)]
  | cons h hs ih =>
    intro a mp mp' hm q
    obtain ⟨mp₁, h₁, h₂⟩ := Option.bind_eq_some_iff.1 hm
    rw [ih h₂ q, mapChunk_find h₁ q]
    by_cases hq : q = a
    · subst hq
      simp
    · by_cases hlt : a + 1 ≤ q
      · have hsub : q - a = q - (a + 1) + 1 := by omega
        simp only [List.length_cons, hsub, List.getElem?_cons_succ, if_neg hq]
        exact if_congr (by omega) rfl rfl
      · rw [if_neg (by omega), if_neg hq, if_neg (by simp; omega)]

/-- A chunk is unmapped at its index. -/
theorem unmapChunk_find {mp mp' : OrdMap Nat Handle} (hm : unmapChunk idx mp = some mp') (q : Nat) :
    mp'[q]? = if q = idx then none else mp[q]? := by
  unfold unmapChunk at hm
  split at hm
  · cases hm
    rw [OrdMap.getElem?_erase]
  · cases hm

/-- A message has the effect that the owner expects. -/
theorem Rel.act {x : Ghost} (h : Rel hs u x) {g : Stage} {m : Msg} {u' : Subscriber} (hp : u.pc = .got g m) (hu : u.act g m = some u') :
    Rel hs u' x := by
  have hno : ∀ p : Phase, u.pc ≠ p.pc := pc_ne (by simp [hp]) (by simp [hp])
  cases h with
  | idle _ hp' => exact absurd hp' (hno _)
  | sent _ _ hp' => exact absurd hp' (hno _)
  | working _ _ _ hp' => simp [hp] at hp'
  | done _ _ hp' => exact absurd hp' (hno _)
  | @got n p t idx p' m' g' hm hn hg hp' hi ha hf hd hv =>
    obtain ⟨rfl, rfl⟩ : g = g' ∧ m = m' := by simpa [hp] using hp'
    cases hm with
    | header =>
      cases hg
      obtain ⟨mp, hmp, rfl⟩ := Option.map_eq_some_iff.1 hu
      refine .working (.header idx) hn rfl (.inr ⟨.inl rfl, .inl rfl⟩) hi ha fun q => ?_
      rw [mapChunks_find hmp q, hf.2, hv q]
      by_cases hq : q < n
      · have hlt : q < hs.length := hq.trans_le hn
        simp [Phase.sees, Phase.has, hq, hlt]
      · simp [Phase.sees, Phase.has, hq]
    | @addChunk k _ hk =>
      cases hg
      obtain ⟨ht, hc, y, hy, hf⟩ := hf
      have hfd : u.fds = [y] := (hd (by simp [hf])).trans hf
      simp only [Subscriber.act] at hu
      rw [if_neg (by simp [ht, hf]), hfd] at hu
      obtain ⟨mp, hmp, rfl⟩ := Option.map_eq_some_iff.1 hu
      refine .working (.addChunk idx hk) hn rfl (.inr ⟨.inr rfl, .inl rfl⟩) hi ha fun q => ?_
      rw [mapChunk_find hmp q, hv q, hc]
      by_cases hq : q = n - 1
      · subst hq
        simp [Phase.sees, Phase.has, hy, show n - 1 < n by omega]
      · simp only [if_neg hq, Phase.sees, Phase.has, decide_eq_true_eq]
        exact if_congr (by omega) rfl rfl
    | revoke hidx =>
      cases hg
      simp only [Subscriber.act, hf.1] at hu
      obtain ⟨mp, hmp, rfl⟩ := Option.map_eq_some_iff.1 hu
      refine .working (.revoke hidx) hn rfl (.inl rfl) hi ha fun q => ?_
      rw [unmapChunk_find hmp q, hv q, hf.2]
      by_cases hq : q = idx
      · simp [Phase.sees, Phase.has, hq]
      · simp [Phase.sees, Phase.has, hq]
    | remap hidx =>
      cases hg
      obtain ⟨ht, hc, y, hy, hf⟩ := hf
      have hfd : u.fds = [y] := (hd (by simp [hf])).trans hf
      simp only [Subscriber.act, ht] at hu
      rw [hfd] at hu
      obtain ⟨mp, hmp, rfl⟩ := Option.map_eq_some_iff.1 hu
      refine .working (.remap hidx) hn rfl (.inl rfl) hi ha fun q => ?_
      rw [mapChunk_find hmp q, hv q, hc]
      by_cases hq : q = idx
      · subst hq
        simp [Phase.sees, Phase.has, hy, hidx]
      · simp [Phase.sees, Phase.has, hq]
    | go =>
      cases hg
      simp only [Subscriber.act, show m.type = .go from hf] at hu
      cases hu
      exact .done (.go idx) hn rfl hi (by simp [ha]) hv

end

end Shared

end Vmem
