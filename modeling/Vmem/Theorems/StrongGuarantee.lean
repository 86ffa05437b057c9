import Vmem.Lemmas.GuaranteeRuns

/-!
# The strong guarantee of the backend (B1 to B3)

A call that fails without being `Fatal` changes nothing, a successful move keeps address and contents, and nothing leaks.
-/

namespace Vmem

open GuaranteeAux

/-- In every run up to the first `Fatal` result, over every outcome of every checked driver call and of the link: the driver
holds one reservation, one read/write mapping and one handle at the recorded place for each live chunk and nothing else, the
caller's chunks are the recorded ones, and the used bytes are the sizes of the live chunks. A call that fails leaves the
records, the counts, the caller's chunks and the driver as they were; a successful move keeps the address and size and leaves
the chunk at the target; and no call changes the contents of a chunk. -/
theorem backend_strong_guarantee {β : Type} (st : Caller β) (h : st.Reached) :
    st.Consistent ∧ (∀ l, (st.b.used l).toNat = st.b.liveBytes l) ∧
    ∀ (c : MemCall) (s : Status) (st' : Caller β), st.Step c s st' → s ≠ .fatal →
      (s ≠ .ok → st'.b.chunks = st.b.chunks ∧ (∀ l, st'.b.used l = st.b.used l) ∧ st'.held = st.held ∧ st'.d = st.d) ∧
      (∀ (va : Ptr) (target : Loc), c = .move va target → s = .ok → ∃ r r' : Rec, st.b.chunks[va]? = some r ∧
        st'.b.chunks[va]? = some r' ∧ r'.size = r.size ∧ r'.loc = target) ∧
      ∀ (va : Ptr) (r r' : Rec), st.b.chunks[va]? = some r → st'.b.chunks[va]? = some r' →
        st'.d.contents va = st.d.contents va := by
  have hinv := reached_inv h
  refine ⟨hinv.toConsistent, hinv.exact, fun c s st' hs hf => ⟨fun hne => ?_, ?_, ?_⟩⟩
  · rcases hinv.step_cases hs hf with ⟨-, hb, hh, hd⟩ | ⟨_, _, _, -, rfl, -⟩ | ⟨_, _, -, rfl, -⟩ |
      ⟨_, _, _, _, _, -, rfl, -⟩ | ⟨_, _, -, rfl, -⟩
    · exact ⟨hb.chunks, hb.used, hh, hd⟩
    all_goals exact absurd rfl hne
  · rintro va target rfl rfl
    rcases hinv.step_cases hs hf with ⟨hne, -⟩ | ⟨_, _, _, hc, -⟩ | ⟨_, _, hc, -⟩ |
      ⟨va', target', r, x, nh, hc, -, hr, -, hm, -⟩ | ⟨va', r, hc, -, hr, rfl⟩
    · exact absurd rfl hne
    · cases hc
    · cases hc
    · cases hc
      exact ⟨r, ⟨nh, r.size, target⟩, hr, by simp [hm.chunks], rfl, rfl⟩
    · cases hc
      exact ⟨r, r, hr, hr, rfl, rfl⟩
  · intro va r r' hr hr'
    exact hinv.step_contents hs hf hr hr'

/-- A backend in local mode creates a chunk of ten bytes at the address 64, with the handle 7. -/
theorem backend_strong_guarantee_created : ∃ st : Caller ℕ, st.Reached ∧
    st.b.chunks[(64 : Ptr)]? = some ⟨7, 10, .device⟩ ∧ st.d.mappings[(64 : Ptr)]? = some ⟨10, 7, true⟩ ∧
    (st.b.used .device).toNat = st.b.liveBytes .device := by
  have hrun : Prog.Runs (Cuda.world ℕ) (VmemBackend.create 10 {} {}) {}
      ((.ok, ⟨64, 10, .device⟩), { usedDevice := 10, chunks := (∅ : OrdMap Ptr Rec).insert 64 ⟨7, 10, .device⟩ })
      { reservations := (∅ : OrdMap Ptr Size).insert 64 10
        handles := (∅ : OrdMap Handle (Phys ℕ)).insert 7 ⟨10, .device, 0⟩
        mappings := ((∅ : OrdMap Ptr Mapping).insert 64 ⟨10, 7, false⟩).insert 64 ⟨10, 7, true⟩ } := by
    refine runs_cu 64 0 ⟨by decide, by decide, by decide, by simp⟩ ?_
    refine runs_cu 7 0 (by simp [Cuda.Valid, Cuda.after]) ?_
    refine runs_cu 0 0 ⟨⟨⟨10, .device, 0⟩, rfl, rfl⟩, ⟨64, 10, rfl, by decide, by decide⟩, by simp [Cuda.after]⟩ ?_
    refine runs_cu 0 0 ⟨⟨10, 7, false⟩, rfl, rfl⟩ ?_
    exact .ret _ _
  have h : Caller.Reached (β := ℕ) _ := .call (.start {} rfl fun l => by cases l <;> rfl) (.create hrun) (by decide)
  have hst := backend_strong_guarantee _ h
  exact ⟨_, h, rfl, hst.1.mappings 64, hst.2.1 .device⟩

end Vmem
