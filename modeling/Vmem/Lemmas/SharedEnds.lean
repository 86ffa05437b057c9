import Vmem.Lemmas.SharedProgress

/-!
# Every run ends

Each step uses up some work, so every run ends; and where a chunk has room for an allocation of each subscriber, the segment is large enough
for all of them (`reached_fits`).
-/

namespace Vmem

namespace Shared

variable {c : Config} {s s' : State c} {x : Fin c.nsub → Ghost}

/-! ## Work -/

/-- The steps that a subscriber has before it waits again. -/
def Pc.work : Pc → Nat
  | got _ _ => 4
  | alloc _ => 3
  | tag _ _ => 2
  | reply _ => 1
  | _ => 0

def Subscriber.work (u : Subscriber) : Nat := 5 * u.inbox.length + u.pc.work

/-- A send is a step, and five of who receives it. -/
def OwnerStep.work {n : Nat} : OwnerStep n → Nat
  | send _ _ _ => 6
  | _ => 1

def State.work (s : State c) : Nat := (s.rest.map OwnerStep.work).sum + ∑ i, (s.subs i).work

/-- What all subscribers have, with one of them changed. -/
theorem sum_update (subs : Fin c.nsub → Subscriber) (f : Subscriber → Nat) (i : Fin c.nsub) (u : Subscriber) :
    (∑ j, f (Function.update subs i u j)) + f (subs i) = (∑ j, f (subs j)) + f u := by
  have hrest : ∑ j ∈ Finset.univ.erase i, f (Function.update subs i u j) = ∑ j ∈ Finset.univ.erase i, f (subs j) :=
    Finset.sum_congr rfl fun j hj => by rw [Function.update_of_ne (Finset.ne_of_mem_erase hj)]
  rw [← Finset.add_sum_erase _ _ (Finset.mem_univ i), ← Finset.add_sum_erase _ (fun j => f (subs j)) (Finset.mem_univ i), hrest,
    Function.update_self]
  omega

/-- What a message does is less work to do. -/
theorem act_work {u u' : Subscriber} {g : Stage} {m : Msg} (hp : u.pc = .got g m) (hu : u.act g m = some u') : u'.work < u.work := by
  obtain ⟨hi, hn⟩ := act_next hu
  rcases hn with hn | ⟨-, hn⟩
  · cases g <;> simp [Subscriber.work, Pc.work, Stage.next, hp, hi, hn]
  · simp [Subscriber.work, Pc.work, hp, hi, hn]

/-- A step after which a subscriber and the owner, who has `n` less to do, have less to do together. -/
theorem State.work_lt (s' : State c) (n : Nat) (hw : s.work = s'.work + n) (hsubs : s'.subs = s.subs) {i : Fin c.nsub} {u : Subscriber}
    (hu : u.work < (s.subs i).work + n) : (s'.setSub i u).work < s.work := by
  have hsum := sum_update s.subs Subscriber.work i u
  simp only [State.work, hsubs] at hw
  simp only [State.work, State.setSub, hsubs]
  omega

/-- Every step is one less to take. -/
theorem Step.work_lt (hs : Step s s') : s'.work < s.work := by
  cases hs with
  | addChunk hr => simp [State.work, OwnerStep.work, hr]
  | grow hr => simp [State.work, OwnerStep.work, hr]
  | remapBacking hr => simp [State.work, OwnerStep.work, hr]
  | send hr =>
    refine State.work_lt _ 6 ?_ ?_ ?_
    · simp only [State.work, hr, List.map_cons, List.sum_cons, OwnerStep.work]
      omega
    · rfl
    · simp only [Subscriber.work, List.length_append, List.length_singleton]
      omega
  | await hr ha =>
    refine State.work_lt _ 1 ?_ ?_ ?_
    · simp only [State.work, hr, List.map_cons, List.sum_cons, OwnerStep.work]
      omega
    · rfl
    · exact Nat.lt_succ_self _
  | recv hp hi =>
    refine State.work_lt _ 0 rfl rfl ?_
    simp only [Subscriber.work, Pc.work, hp, hi, List.length_cons]
    omega
  | act hp hu => exact State.work_lt _ 0 rfl rfl (act_work hp hu)
  | alloc hp hf => exact State.work_lt _ 0 rfl rfl (by simp [Subscriber.work, Pc.work, hp])
  | tag hp hm => exact State.work_lt _ 0 rfl rfl (by simp [Subscriber.work, Pc.work, hp])
  | reply hp => exact State.work_lt _ 0 rfl rfl (by simp [Subscriber.work, Pc.work, hp])

/-- So every run ends. -/
theorem acc_step (s : State c) : Acc (fun b a => Step a b) s :=
  Subrelation.accessible (fun hs => hs.work_lt) (InvImage.accessible State.work (Nat.lt_wfRel.wf.apply _))

/-! ## The segment is large enough -/

/-- The allocations that are to come when a stage is waited for. -/
def Stage.owes : Stage → Nat
  | header => 2
  | addChunk => 1
  | serve => 0

def Pc.owes : Pc → Nat
  | wait g => g.owes
  | got g _ => g.owes
  | alloc g => g.owes + 1
  | tag g _ => g.owes
  | reply g => g.owes
  | verify => 0

def State.owed (s : State c) : Nat := ∑ i, (s.subs i).pc.owes

/-- Two allocations for each subscriber, one before the segment grows and one in the new chunk. -/
structure Paid (s : State c) : Prop where
  count : s.allocs.length + s.owed = 2 * c.nsub
  some : .grow ∈ s.rest → ∀ i, 1 ≤ (s.subs i).pc.owes
  before : .grow ∈ s.rest → s.bump = allocLen * s.allocs.length
  after : .grow ∉ s.rest → s.bump + allocLen * c.nsub = c.chunk * c.nchk + allocLen * s.allocs.length

/-- A message leaves what a subscriber owes. -/
theorem act_owes {u u' : Subscriber} {g : Stage} {m : Msg} (hu : u.act g m = Option.some u') : u'.pc.owes = g.owes := by
  rcases (act_next hu).2 with hp | ⟨rfl, hp⟩
  · cases g <;> rw [hp] <;> rfl
  · rw [hp]
    rfl

/-- The account depends on what is owed and allocated. -/
theorem Paid.of_same (h : Paid s) (hrest : .grow ∈ s'.rest ↔ .grow ∈ s.rest) (hb : s'.bump = s.bump) (ha : s'.allocs = s.allocs)
    (ho : ∀ i, (s'.subs i).pc.owes = (s.subs i).pc.owes) : Paid s' := by
  have howed : s'.owed = s.owed := Finset.sum_congr rfl fun i _ => ho i
  refine ⟨by rw [ha, howed]; exact h.count, fun hg i => ?_, fun hg => ?_, fun hg => ?_⟩
  · rw [ho i]
    exact h.some (hrest.1 hg) i
  · rw [ha, hb]
    exact h.before (hrest.1 hg)
  · rw [ha, hb]
    exact h.after fun hs => hg (hrest.2 hs)

/-- What the others owe stays. -/
theorem owes_update {i : Fin c.nsub} {u : Subscriber} (hu : u.pc.owes = (s.subs i).pc.owes) (j : Fin c.nsub) :
    (Function.update s.subs i u j).pc.owes = (s.subs j).pc.owes := by
  by_cases hj : j = i
  · subst hj
    rw [Function.update_self]
    exact hu
  · rw [Function.update_of_ne hj]

/-- An allocation that was owed. -/
theorem State.owed_succ {s' : State c} (hsubs : s'.subs = s.subs) {i : Fin c.nsub} {u : Subscriber}
    (hu : (s.subs i).pc.owes = u.pc.owes + 1) : (s'.setSub i u).owed + 1 = s.owed := by
  have hsum := sum_update s.subs (·.pc.owes) i u
  simp only [State.owed, State.setSub, hsubs]
  omega

/-- An allocation pays what its subscriber owes. -/
theorem Paid.alloc (h : Paid s) (hS : Session s x) {i : Fin c.nsub} {g : Stage} (hp : (s.subs i).pc = .alloc g) :
    Paid (State.setSub { s with bump := s.bump + allocLen, allocs := s.allocs ++ [⟨s.bump, allocLen, tagOf g (c.pid i)⟩] } i
      { s.subs i with pc := .tag g ⟨s.bump, allocLen, tagOf g (c.pid i)⟩ }) := by
  refine ⟨?_, fun hg j => ?_, fun hg => ?_, fun hg => ?_⟩
  · show (s.allocs ++ [_]).length + _ = _
    rw [List.length_append, List.length_singleton, Nat.add_assoc, Nat.add_comm 1, State.owed_succ (s := s) ?_ ?_]
    · exact h.count
    · rfl
    · rw [hp]
      rfl
  · obtain ⟨n, -, -, hcases⟩ := hS.allocates hp
    rcases hcases with ⟨rfl, -, -⟩ | ⟨-, -, hno⟩
    · by_cases hj : j = i
      · subst hj
        simp [State.setSub, Pc.owes, Stage.owes]
      · simpa [State.setSub, hj] using h.some hg j
    · exact absurd hg hno
  · simp [State.setSub, h.before hg, Nat.mul_add]
  · have hb := h.after hg
    simp only [State.setSub, List.length_append, List.length_singleton, Nat.mul_add]
    omega

/-- Every step keeps the account. -/
theorem Paid.step (h : Paid s) (hS : Session s x) (hs : Step s s') : Paid s' := by
  cases hs with
  | addChunk hr => exact h.of_same (by simp [hr]) rfl rfl fun _ => rfl
  | send hr => exact h.of_same (by simp [hr, State.setSub]) rfl rfl (owes_update rfl)
  | await hr => exact h.of_same (by simp [hr, State.setSub]) rfl rfl (owes_update rfl)
  | @grow rest hr =>
    have ho := hS.order
    rw [hr] at ho
    have hgrow : .grow ∈ s.rest := by rw [hr]; exact List.mem_cons_self
    have howes (i : Fin c.nsub) : (s.subs i).pc.owes = 1 := by
      obtain ⟨k, hk⟩ := ho.2.1 i
      have hrel := hS.rel i
      rw [hk] at hrel
      cases hrel with
      | idle _ hp =>
        rw [hp]
        rfl
    have howed : s.owed = c.nsub := by simp [State.owed, howes]
    have hcount := h.count
    have hlen : s.allocs.length = c.nsub := by omega
    refine ⟨h.count, fun hg => absurd hg ho.1, fun hg => absurd hg ho.1, fun _ => ?_⟩
    rw [hlen]
  | remapBacking hr => exact h.of_same (by simp [hr]) rfl rfl fun _ => rfl
  | recv hp => exact h.of_same Iff.rfl rfl rfl (owes_update (by simp [hp, Pc.owes]))
  | act hp hu => exact h.of_same Iff.rfl rfl rfl (owes_update ((act_owes hu).trans (by rw [hp]; rfl)))
  | alloc hp => exact h.alloc hS hp
  | tag hp => exact h.of_same Iff.rfl rfl rfl (owes_update (by simp [hp, Pc.owes]))
  | reply hp => exact h.of_same Iff.rfl rfl rfl (owes_update (by simp [hp, Pc.owes]))

/-- The account holds in every reached state. -/
theorem reached_paid (h : Reached s) : Paid s := by
  induction h with
  | start =>
    refine ⟨by simp [State.owed, Pc.owes, Stage.owes, Nat.mul_comm], fun _ _ => by simp [Pc.owes, Stage.owes], fun _ => rfl, fun hg => ?_⟩
    exact absurd (by simp [ownerMain]) hg
  | step h hs ih =>
    obtain ⟨x, hx⟩ := reached_session h
    exact ih.step hx hs

/-- Where one chunk has room for an allocation of each subscriber, no subscriber runs out of the segment. -/
theorem reached_fits (h : Reached s) (hn : 0 < c.nchk) (hc : c.nsub * allocLen ≤ c.chunk) {i : Fin c.nsub} {g : Stage}
    (hp : (s.subs i).pc = .alloc g) : s.bump + allocLen ≤ s.total := by
  obtain ⟨x, hx⟩ := reached_session h
  have hk := reached_kept h
  have hpaid := reached_paid h
  have hcount := hpaid.count
  obtain ⟨n, -, -, hcases⟩ := hx.allocates hp
  rcases hcases with ⟨rfl, -, hg⟩ | ⟨rfl, -, hg⟩
  · -- the others owe an allocation each, and this one owes two
    have hlt : c.nsub < s.owed := by
      have hsum : ∑ _j : Fin c.nsub, 1 < ∑ j, (s.subs j).pc.owes :=
        Finset.sum_lt_sum (fun j _ => hpaid.some hg j) ⟨i, Finset.mem_univ i, by simp [hp, Pc.owes, Stage.owes]⟩
      simpa [State.owed] using hsum
    have hle : s.allocs.length + 1 ≤ c.nsub := by omega
    calc s.bump + allocLen = allocLen * (s.allocs.length + 1) := by rw [hpaid.before hg, Nat.mul_add, Nat.mul_one]
      _ ≤ allocLen * c.nsub := Nat.mul_le_mul_left _ hle
      _ = c.nsub * allocLen := Nat.mul_comm _ _
      _ ≤ c.chunk := hc
      _ ≤ c.chunk * c.nchk := Nat.le_mul_of_pos_right _ hn
      _ = s.total := (hk.grow hg).symm
  · have hpos : 1 ≤ s.owed := by
      have hle := Finset.single_le_sum (f := fun j => (s.subs j).pc.owes) (fun _ _ => Nat.zero_le _) (Finset.mem_univ i)
      simpa [State.owed, hp, Pc.owes, Stage.owes] using hle
    have hle : s.allocs.length + 1 ≤ 2 * c.nsub := by omega
    have hb := hpaid.after hg
    have hmul := Nat.mul_le_mul_left allocLen hle
    rw [hk.grown hg]
    rw [Nat.mul_comm] at hc
    have hexp : c.chunk * (c.nchk + 1) = c.chunk * c.nchk + c.chunk := Nat.mul_succ _ _
    have htwo : allocLen * (2 * c.nsub) = allocLen * c.nsub + allocLen * c.nsub := by ring
    have hone : allocLen * (s.allocs.length + 1) = allocLen * s.allocs.length + allocLen := Nat.mul_succ _ _
    omega

/-! ## A schedule -/

/-- A step of the owner, if it can take one. New memory has the number of the steps that are left, and holds zeros. -/
def State.ownerStep (s : State c) : Option (State c) :=
  match s.rest with
  | .addChunk _ :: rest =>
    if BitVec.ofNat 64 rest.length ∈ s.handles then none
    else some { s with
      rest, handles := s.handles ++ [BitVec.ofNat 64 rest.length], mem := Function.update s.mem (BitVec.ofNat 64 rest.length) fun _ => 0 }
  | .send i t idx :: rest => some (State.setSub { s with rest } i { s.subs i with inbox := (s.subs i).inbox ++ [s.msg idx t] })
  | .await i :: rest =>
    match (s.subs i).acks with
    | 0 => none
    | n + 1 => some (State.setSub { s with rest } i { s.subs i with acks := n })
  | .grow :: rest => some { s with rest, total := c.chunk * (c.nchk + 1), bump := c.chunk * c.nchk }
  | .remapBacking idx toHost :: rest =>
    match s.handles[idx]? with
    | none => none
    | some old =>
      if BitVec.ofNat 64 rest.length ∈ s.handles then none
      else some { s with
        rest, handles := s.handles.set idx (BitVec.ofNat 64 rest.length)
        mem := Function.update s.mem (BitVec.ofNat 64 rest.length) (s.mem old), onHost := s.onHost.insert idx toHost }
  | _ => none

/-- A step of a subscriber, if it can take one. -/
def State.subscriberStep (s : State c) (i : Fin c.nsub) : Option (State c) :=
  match (s.subs i).pc with
  | .wait g =>
    match (s.subs i).inbox with
    | [] => none
    | m :: q => some (s.setSub i { s.subs i with pc := .got g m, inbox := q, fds := if m.fds = [] then (s.subs i).fds else m.fds })
  | .got g m => ((s.subs i).act g m).map (s.setSub i)
  | .alloc g =>
    if s.bump + allocLen ≤ s.total then
      some (State.setSub { s with bump := s.bump + allocLen, allocs := s.allocs ++ [⟨s.bump, allocLen, tagOf g (c.pid i)⟩] } i
        { s.subs i with pc := .tag g ⟨s.bump, allocLen, tagOf g (c.pid i)⟩ })
    else none
  | .tag g r => some (State.setSub { s with mem := State.fill c (s.subs i).mapped r s.mem } i { s.subs i with pc := .reply g })
  | .reply g => some (s.setSub i { s.subs i with pc := .wait g, acks := (s.subs i).acks + 1 })
  | .verify => none

/-- The subscribers go before the owner, in their order. -/
def State.next (s : State c) : Option (State c) := ((List.finRange c.nsub).findSome? s.subscriberStep).or s.ownerStep

/-- A number of steps, or fewer if there are no more. -/
def State.run (s : State c) : Nat → State c
  | 0 => s
  | n + 1 => (s.next.map fun s' => s'.run n).getD s

/-- What the schedule does with the owner is a step. -/
theorem step_owner (hs : s.ownerStep = some s') : Step s s' := by
  unfold State.ownerStep at hs
  split at hs
  · next hr =>
    split at hs
    · cases hs
    · next hnew =>
      cases hs
      exact .addChunk hr hnew
  · next hr =>
    cases hs
    exact .send hr
  · next hr =>
    split at hs
    · cases hs
    · next ha =>
      cases hs
      exact .await hr ha
  · next hr =>
    cases hs
    exact .grow hr
  · next hr =>
    split at hs
    · cases hs
    · next old ho =>
      split at hs
      · cases hs
      · next hnew =>
        cases hs
        exact .remapBacking hr ho hnew
  · cases hs

/-- So is what it does with a subscriber. -/
theorem step_subscriber (hroom : ∀ i, Roomy c (s.subs i)) {i : Fin c.nsub} (hs : s.subscriberStep i = some s') : Step s s' := by
  unfold State.subscriberStep at hs
  split at hs
  · next hp =>
    split at hs
    · cases hs
    · next hi =>
      cases hs
      exact .recv hp hi
  · next hp =>
    obtain ⟨u, hu, rfl⟩ := Option.map_eq_some_iff.1 hs
    exact .act hp hu
  · next hp =>
    split at hs
    · next hf =>
      cases hs
      exact .alloc hp hf
    · cases hs
  · next g r hp =>
    cases hs
    exact .tag hp (hroom i g r hp)
  · next hp =>
    cases hs
    exact .reply hp
  · cases hs

/-- What the schedule reaches, a run reaches. -/
theorem reached_run (h : Reached s) (n : Nat) : Reached (s.run n) := by
  induction n generalizing s with
  | zero => exact h
  | succ n ih =>
    unfold State.run
    cases hs : s.next with
    | none => exact h
    | some s' =>
      refine ih (h.step ?_)
      unfold State.next at hs
      rcases Option.or_eq_some_iff.1 hs with hsub | ⟨-, howner⟩
      · obtain ⟨i, -, hi⟩ := List.exists_of_findSome?_eq_some hsub
        exact step_subscriber (reached_roomy h) hi
      · exact step_owner howner

/-- When all verify, no one takes a step. -/
theorem not_step_of_verify (hr : s.rest = [.verify]) (hp : ∀ i, (s.subs i).pc = .verify) : ¬Step s s' := by
  intro hs
  cases hs with
  | addChunk hr' | send hr' | await hr' | grow hr' | remapBacking hr' => cases hr.symm.trans hr'
  | recv hp' | act hp' | alloc hp' | tag hp' | reply hp' => cases (hp _).symm.trans hp'

end Shared

end Vmem
