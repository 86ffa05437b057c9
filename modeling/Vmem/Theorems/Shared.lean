import Vmem.Lemmas.SharedEnds

/-!
# A shared segment holds what was written

What the processes rely on, over every run.
-/

namespace Vmem

namespace Shared

/-- In every run of the owner and its subscribers, in any order, for any number of them and of chunks: what the subscribers have mapped is the
owner's memory, the regions lie apart and inside the segment, and a region that is written holds its tag from then on, wherever its chunks
are moved. -/
theorem shared_segment {c : Config} (s : State c) (h : Reached s) : s.Coherent := by
  obtain ⟨x, hx⟩ := reached_session h
  have hk := reached_kept h
  refine ⟨fun i q y => (hx.rel i).mapped, fun idx toHost rest hr i => ?_, fun i hi => (hx.verify hi).2, hk.apart,
    fun r hr => (hk.below r hr).trans hk.bump, hk.tagged, fun hv r hr => ?_⟩
  · have ho := hx.order
    rw [hr] at ho
    have hrel := hx.rel i
    rw [ho.2.1 i] at hrel
    cases hrel with
    | idle _ _ _ _ hv =>
      rw [hv idx]
      simp [Phase.sees, Phase.has]
  · have hquiet : ∀ j, Quiet (x j) := by
      rcases hv with hv | ⟨i, hi⟩
      · have ho := hx.order
        rw [hv] at ho
        exact fun j => .inr (ho.2 j)
      · exact hx.calm i (hx.verify hi).1
    rcases hk.tagged r hr with ⟨i, g, hi⟩ | hall
    · exact absurd hi ((hx.rel i).not_tag (hquiet i) g r)
    · exact hall

/-- Two subscribers and one chunk of 2 MiB. -/
def pair : Config := { nsub := 2, nchk := 1, chunk := 0x200000, pid := fun i => 7 + i.1 }

/-- The first chunk is on the host, both subscribers have it mapped again, and the four regions hold their tags. -/
theorem shared_segment_pair : ∃ s : State pair, s.onHost[0]? = some true ∧ s.allocs.length = 4 ∧ (∀ r ∈ s.allocs, s.Holds r) ∧
    ∃ y, s.handles[0]? = some y ∧ ∀ i, (s.subs i).mapped[0]? = some y := by
  have hcoherent := shared_segment _ (reached_run (.start (c := pair)) 52)
  have hwait : ∀ i, ((({} : State pair).run 52).subs i).pc = .wait .serve := by decide
  have hmapped : ∀ i, (((({} : State pair).run 52).subs i).mapped[0]?).isSome = true := by decide
  obtain ⟨y, hy⟩ := Option.isSome_iff_exists.1 (hmapped ⟨0, by decide⟩)
  refine ⟨_, by decide, by decide, fun r hr => ?_, y, hcoherent.mapped _ _ _ hy, fun i => ?_⟩
  · rcases hcoherent.tagged r hr with ⟨i, g, hi⟩ | hholds
    · cases (hwait i).symm.trans hi
    · exact hholds
  · obtain ⟨z, hz⟩ := Option.isSome_iff_exists.1 (hmapped i)
    rw [hz, ← hcoherent.mapped _ _ _ hz, hcoherent.mapped _ _ _ hy]

/-- Every run ends. Where a chunk has room for an allocation of each subscriber, as one of 2 MiB has for as many as the tables hold, no subscriber
runs out of the segment, and a run stops only when all of them verify: each has allocated twice, and every region holds its tag. -/
theorem shared_ends {c : Config} (hn : 0 < c.nchk) (hc : c.nsub * allocLen ≤ c.chunk) (s : State c) (h : Reached s) :
    Acc (fun s₂ s₁ => Step s₁ s₂) s ∧ (∀ i g, (s.subs i).pc = .alloc g → s.bump + allocLen ≤ s.total) ∧
    ((∀ s', ¬Step s s') → s.rest = [.verify] ∧ (∀ i, (s.subs i).pc = .verify) ∧ s.allocs.length = 2 * c.nsub ∧
      ∀ r ∈ s.allocs, s.Holds r) := by
  have hfit (i : Fin c.nsub) (g : Stage) : (s.subs i).pc = .alloc g → s.bump + allocLen ≤ s.total := reached_fits h hn hc
  refine ⟨acc_step s, hfit, fun hstop => ?_⟩
  rcases reached_progress h hfit with ⟨s', hs⟩ | ⟨hrest, hall⟩
  · exact absurd hs (hstop s')
  · have hcount := (reached_paid h).count
    have howed : s.owed = 0 := Finset.sum_eq_zero fun i _ => by rw [hall i]; rfl
    refine ⟨hrest, hall, by omega, fun r hr => ?_⟩
    rcases (reached_kept h).tagged r hr with ⟨i, g, hi⟩ | htag
    · cases (hall i).symm.trans hi
    · exact htag

/-- Every run of two subscribers ends. One of them ends with the first chunk back on the device and four regions that hold their tags. -/
theorem shared_ends_pair : Acc (fun s₂ s₁ : State pair => Step s₁ s₂) {} ∧ ∃ s : State pair, s.onHost[0]? = some false ∧
    (∀ s', ¬Step s s') ∧ s.allocs.length = 4 ∧ ∀ r ∈ s.allocs, s.Holds r := by
  refine ⟨(shared_ends (by decide) (by decide) _ .start).1, ({} : State pair).run 100, by decide, ?_⟩
  have hstop : ∀ s', ¬Step (({} : State pair).run 100) s' := fun s' => not_step_of_verify (by decide) (by decide)
  exact ⟨hstop, ((shared_ends (by decide) (by decide) _ (reached_run .start 100)).2.2 hstop).2.2⟩

end Shared

end Vmem
