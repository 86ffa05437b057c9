import Vmem.Shared

/-!
# What the owner expects of its subscribers

The owner's steps, read as what it expects of each subscriber before them (`Ordered`). `main` is in this order from the start.
-/

namespace Vmem

namespace Shared

/-- What a subscriber has when nothing is in flight: the first `k` chunks, or these but one. -/
inductive Phase
  | new
  | ready (g : Stage) (k : Nat)
  | revoked (k idx : Nat)
  | gone (k : Nat)

namespace Phase

def pc : Phase → Pc
  | new => .wait .header
  | ready g _ => .wait g
  | revoked _ _ => .wait .serve
  | gone _ => .verify

def size : Phase → Nat
  | new => 0
  | ready _ k => k
  | revoked k _ => k
  | gone k => k

/-- Whether a chunk is mapped. -/
def has : Phase → Nat → Bool
  | new, _ => false
  | ready _ k, q => decide (q < k)
  | revoked k idx, q => decide (q < k ∧ q ≠ idx)
  | gone k, q => decide (q < k)

/-- The mappings, if the owner has these handles. -/
def sees (p : Phase) (hs : List Handle) (q : Nat) : Option Handle := if p.has q then hs[q]? else none

/-- A chunk that a subscriber has is one it was told of. -/
theorem lt_of_has {p : Phase} {q : Nat} (h : p.has q = true) : q < p.size := by
  cases p with
  | new => cases h
  | ready g k => exact of_decide_eq_true h
  | revoked k idx => exact (of_decide_eq_true h).1
  | gone k => exact of_decide_eq_true h

end Phase

/-- What a message makes of a subscriber, when the owner has `n` chunks. -/
inductive Moves (n : Nat) : Phase → MsgType → Nat → Phase → Prop
  | header (idx : Nat) : Moves n .new .header idx (.ready .addChunk n)
  | addChunk {k : Nat} (idx : Nat) (h : k + 1 = n) : Moves n (.ready .addChunk k) .addChunk idx (.ready .serve n)
  | revoke {idx : Nat} (h : idx < n) : Moves n (.ready .serve n) .revoke idx (.revoked n idx)
  | remap {idx : Nat} (h : idx < n) : Moves n (.revoked n idx) .remap idx (.ready .serve n)
  | go (idx : Nat) : Moves n (.ready .serve n) .go idx (.gone n)

/-- Between the send of a message and the answer to it a subscriber is busy. -/
inductive Ghost
  | idle (p : Phase)
  | busy (n : Nat) (p : Phase) (t : MsgType) (idx : Nat) (p' : Phase)

/-- It was told to go on. -/
def Going (x : Ghost) : Prop := ∃ (n : Nat) (p : Phase) (idx : Nat) (p' : Phase), x = .busy n p .go idx p'

/-- It has no more to write. -/
def Quiet (x : Ghost) : Prop := (∃ k, x = .idle (.ready .serve k)) ∨ Going x

/-- It waits for a new chunk. -/
def Fed (x : Ghost) : Prop := ∃ k, x = .idle (.ready .addChunk k)

/-- A message with memory to write comes at its own time: the header before the segment grows, a new chunk after that. -/
def Due (c : Config) (r : List (OwnerStep c.nsub)) (k : Nat) (t : MsgType) : Prop :=
  (t = .header → k = c.nchk ∧ .grow ∈ r) ∧ (t = .addChunk → k = c.nchk + 1 ∧ .grow ∉ r)

/-- The steps of an owner with `k` chunks are in order: a subscriber is sent only what it waits for and answers before the next, a chunk is
moved when all gave it up, and all go on at once, with no more chunks to come. -/
def Ordered (c : Config) : List (OwnerStep c.nsub) → Nat → (Fin c.nsub → Ghost) → Prop
  | [], _, _ => False
  | .addChunk idx :: r, k, x => idx = k ∧ (∀ j, ¬Going (x j)) ∧ Ordered c r (k + 1) x
  | .send i t idx :: r, k, x => ∃ p p' : Phase, x i = .idle p ∧ Moves k p t idx p' ∧ Due c r k t ∧ (t = .go → ∀ j, Quiet (x j)) ∧
      (t ≠ .go → ∀ j, ¬Going (x j)) ∧ Ordered c r k (Function.update x i (.busy k p t idx p'))
  | .await i :: r, k, x => ∃ (m : Nat) (p : Phase) (t : MsgType) (idx : Nat) (p' : Phase), x i = .busy m p t idx p' ∧ t ≠ .go ∧
      Ordered c r k (Function.update x i (.idle p'))
  | .grow :: r, k, x => .grow ∉ r ∧ (∀ j, Fed (x j)) ∧ Ordered c r k x
  | .remapBacking idx _ :: r, k, x => idx < k ∧ (∀ i, x i = .idle (.revoked k idx)) ∧ Ordered c r k x
  | .verify :: r, _, x => r = [] ∧ ∀ i, Going (x i)

section

variable {c : Config} {k : Nat} {r : List (OwnerStep c.nsub)}

/-- One step for each subscriber in turn. -/
theorem ordered_each {f : Fin c.nsub → OwnerStep c.nsub} {y z : Ghost} (hg : ∀ i, f i ≠ .grow)
    (hf : ∀ (i : Fin c.nsub) (r' : List (OwnerStep c.nsub)) (x : Fin c.nsub → Ghost), (.grow ∈ r' ↔ .grow ∈ r) → x i = y →
      (∀ j, x j = y ∨ x j = z) → Ordered c r' k (Function.update x i z) → Ordered c (f i :: r') k x)
    (h : Ordered c r k fun _ => z) : Ordered c ((List.finRange c.nsub).map f ++ r) k fun _ => y := by
  have hall {cs : List (Fin c.nsub)} (hcs : cs.Nodup) : ∀ x : Fin c.nsub → Ghost, (∀ j, x j = if j ∈ cs then y else z) →
      Ordered c (cs.map f ++ r) k x := by
    induction cs with
    | nil =>
      intro x hx
      rw [show x = fun _ => z from funext fun j => by simp [hx j]]
      exact h
    | cons i cs ih =>
      intro x hx
      obtain ⟨hi, hcs⟩ := List.nodup_cons.1 hcs
      refine hf i _ x (by simp [hg]) (by simp [hx]) (fun j => ?_) (ih hcs _ fun j => ?_)
      · rw [hx j]
        split
        · exact .inl rfl
        · exact .inr rfl
      · by_cases hj : j = i
        · subst hj
          simp [hi]
        · simp [hj, hx j]
  exact hall (List.nodup_finRange c.nsub) _ fun j => by simp

/-- A barrier waits for every subscriber. -/
theorem ordered_barrier {m : Nat} {p p' : Phase} {t : MsgType} {idx : Nat} (ht : t ≠ .go) (h : Ordered c r k fun _ => .idle p') :
    Ordered c (barrier (List.finRange c.nsub) ++ r) k fun _ => .busy m p t idx p' :=
  ordered_each (by simp) (fun _ _ _ _ hx _ h => ⟨m, p, t, idx, p', hx, ht, h⟩) h

/-- A broadcast reaches every subscriber that waits. -/
theorem ordered_broadcast {p p' : Phase} {t : MsgType} {idx : Nat} (hm : Moves k p t idx p') (hd : Due c r k t)
    (h : Ordered c r k fun _ => .busy k p t idx p') : Ordered c (broadcast (List.finRange c.nsub) t idx ++ r) k fun _ => .idle p := by
  refine ordered_each (by simp) (fun i r' x hr hx hall h => ⟨p, p', hx, hm, ?_, fun ht j => ?_, fun ht j => ?_, h⟩) h
  · unfold Due at hd ⊢
    rwa [hr]
  · subst ht
    cases hm with
    | go => exact (hall j).imp (fun hj => ⟨k, hj⟩) fun hj => ⟨k, _, idx, _, hj⟩
  · rintro ⟨m, q, idx', q', hj⟩
    rcases hall j with hj' | hj'
    · rw [hj] at hj'
      cases hj'
    · rw [hj] at hj'
      cases hj'
      exact ht rfl

/-- A chunk is moved in order. -/
theorem ordered_remapPhase {idx : Nat} {toHost : Bool} (hidx : idx < k) (h : Ordered c r k fun _ => .idle (.ready .serve k)) :
    Ordered c (remapPhase (List.finRange c.nsub) idx toHost ++ r) k fun _ => .idle (.ready .serve k) := by
  unfold remapPhase
  simp only [List.append_assoc, List.cons_append]
  refine ordered_broadcast (.revoke hidx) (by simp [Due]) (ordered_barrier (by simp) ⟨hidx, fun _ => rfl, ?_⟩)
  exact ordered_broadcast (.remap hidx) (by simp [Due]) (ordered_barrier (by simp) h)

/-- A subscriber that waits was not told to go on. -/
theorem not_going (p : Phase) : ¬Going (.idle p) := by
  rintro ⟨m, q, idx, q', h⟩
  cases h

/-- Chunks are added in order. -/
theorem ordered_addChunks {p : Phase} (m : Nat) : ∀ k : Nat, (Ordered c r (k + m) fun _ => .idle p) →
    Ordered c ((List.range' k m).map .addChunk ++ r) k fun _ => .idle p := by
  induction m with
  | zero => exact fun k h => h
  | succ m ih =>
    intro k h
    refine ⟨rfl, fun _ => not_going p, ih (k + 1) ?_⟩
    rwa [show k + 1 + m = k + (m + 1) by omega]

end

/-- The owner's steps are in order. -/
theorem ordered_ownerMain (c : Config) : Ordered c (ownerMain c) 0 fun _ => .idle .new := by
  unfold ownerMain
  rw [List.range_eq_range']
  refine ordered_addChunks c.nchk 0 ?_
  rw [zero_add]
  refine ordered_broadcast (.header 0) (by simp [Due]) (ordered_barrier (by simp) ⟨rfl, fun _ => not_going _, ?_, fun _ => ⟨_, rfl⟩, ?_⟩)
  · simp [broadcast, barrier, remapPhase]
  · refine ordered_broadcast (.addChunk 0 rfl) ?_ (ordered_barrier (by simp) ?_)
    · simp [Due, broadcast, barrier, remapPhase]
    · refine ordered_remapPhase (by omega) (ordered_remapPhase (by omega) (ordered_broadcast (.go 0) (by simp [Due]) ?_))
      exact ⟨rfl, fun _ => ⟨_, _, _, _, rfl⟩⟩

end Shared

end Vmem
