import Vmem.Lemmas.VectorRuns

/-!
# The capacity of the vector

A vector is in order after every run, and throws when it is at its end and only then, unless it doubles past its end or a number wraps.
-/

namespace Vmem

open VectorAux

/-- In every run of a vector in which a full vector is at its end or can double before its end, and no number wraps: the vector is in order,
each call it makes is valid, an operation throws when the vector would hold more than it may, and only then, and the elements read back as a
plain vector's. -/
theorem vector_whole_capacity {T : ElemType} {x : Vec T} (h : x.Reached (VMMVector.Declared T) VMMVector.Fits) :
    x.Good ∧ (∀ o : VecOp T, x.v.Fits o →
      Throwing.wp Cuda.checked o.program (fun _ _ _ => ¬o.TooLarge x.v) (fun _ _ _ => o.TooLarge x.v) x.v x.d) ∧
    Throwing.wp Cuda.checked (VMMVector.copyToHost T) (fun bs v' d' => bs = x.xs.flatMap ElemType.Value.bytes ∧ v' = x.v ∧ d' = x.d)
      (fun _ _ _ => False) x.v x.d := by
  have hsound := reached_sound h
  refine ⟨good_of_sound hsound, fun o hfits => ?_, copyToHost_wp hsound⟩
  exact Throwing.wp_mono (op_wp hsound hfits) (fun _ _ _ hop => hop.1) fun _ _ _ hop => hop.1

namespace VectorAux

/-- Elements of four bytes. -/
def word : ElemType := ⟨4, [0, 0, 0, 0], by decide, rfl⟩

/-- The numbers from one to four. -/
def oneToFour : List word.Value := [⟨[1, 0, 0, 0], rfl⟩, ⟨[2, 0, 0, 0], rfl⟩, ⟨[3, 0, 0, 0], rfl⟩, ⟨[4, 0, 0, 0], rfl⟩]

/-- A vector for four words, in chunks of two, that gets all of them. -/
def pushed : Option (Vec word) :=
  (((VMMVector.make word 4 8 0 true).run {}).exec respond {}).bind fun y => Vec.pushAll respond ⟨y.1.2, y.2, []⟩ oneToFour

/-- The constructor of that vector ends. -/
theorem made_pushed : (((VMMVector.make word 4 8 0 true).run {}).exec respond {}).any
    (fun y => y.1.1.isOk && decide (VMMVector.Declared word y.1.2)) = true := by
  decide

/-- It is reached. -/
theorem reached_pushed {x : Vec word} (h : pushed = some x) : x.Reached (VMMVector.Declared word) VMMVector.Fits := by
  obtain ⟨⟨⟨r, v⟩, d⟩, hrun, hpush⟩ := Option.bind_eq_some_iff.1 h
  have hempty : Cuda.Contained ({} : Cuda Memory) := by
    intro va m hm
    simp at hm
  have hmade := made_pushed
  rw [hrun] at hmade
  obtain ⟨hr, hv⟩ := Bool.and_eq_true_iff.1 hmade
  cases r with
  | ok =>
    have hrun := Prog.runs_of_exec answers_of_respond hrun
    exact reached_pushAll answers_of_respond (.make hempty (by decide) hrun (of_decide_eq_true hv)) hpush
  | error => cases hr

/-- It is at its end, with all of them. -/
theorem exists_pushed : ∃ x : Vec word, x.Reached (VMMVector.Declared word) VMMVector.Fits ∧ x.v.size = 4 ∧ x.v.capacity = 4 ∧
    x.v.maxCapacity = 4 ∧ x.v.handles.length = 2 ∧ x.v.chunkFits = 2 ∧ x.xs = oneToFour := by
  have hend : pushed.any (fun x => decide (x.v.size = 4 ∧ x.v.capacity = 4 ∧ x.v.maxCapacity = 4 ∧ x.v.handles.length = 2 ∧
      x.v.chunkFits = 2 ∧ x.xs = oneToFour)) = true := by
    decide +kernel
  obtain ⟨x, hx, hend⟩ := (Option.any_eq_true _ _).1 hend
  exact ⟨x, reached_pushed hx, of_decide_eq_true hend⟩

end VectorAux

/-- A vector doubles to its end, where a `push_back` throws, and reads back. -/
theorem vector_whole_capacity_doubled : ∃ x : Vec word, x.v.size = 4 ∧ x.v.capacity = 4 ∧ x.v.maxCapacity = 4 ∧ x.v.handles.length = 2 ∧
    x.Good ∧ Throwing.wp Cuda.checked (VMMVector.pushBack word word.default) (fun _ _ _ => False) (fun _ _ _ => True) x.v x.d ∧
    Throwing.wp Cuda.checked (VMMVector.copyToHost word) (fun bs _ _ => bs = [1, 0, 0, 0, 2, 0, 0, 0, 3, 0, 0, 0, 4, 0, 0, 0])
      (fun _ _ _ => False) x.v x.d := by
  obtain ⟨x, hx, hsize, hcap, hmax, hhandles, hfits, hxs⟩ := exists_pushed
  obtain ⟨hgood, hop, hcopy⟩ := vector_whole_capacity hx
  have hfits : x.v.Fits (.pushBack word.default) := by
    refine fun _ => ⟨?_, .inl (hsize.trans hmax.symm)⟩
    unfold VMMVector.Rounds VMMVector.doubled
    rw [hsize, hfits]
    decide
  refine ⟨x, hsize, hcap, hmax, hhandles, hgood, ?_, ?_⟩
  · refine Throwing.wp_mono (hop (.pushBack word.default) hfits) (fun _ _ _ hnot => ?_) fun _ _ _ _ => trivial
    exact hnot (hsize.trans hmax.symm)
  · refine Throwing.wp_mono hcopy (fun bs _ _ hbs => ?_) fun _ _ _ hno => hno
    rw [hbs.1, hxs]
    rfl

namespace VectorAux

/-- 2 MiB is not zero. -/
theorem large_ne : (0x200000 : Size) ≠ 0 := by decide

/-- Elements of 2 MiB. -/
def large : ElemType := ⟨0x200000, List.replicate 0x200000 0, large_ne, List.length_replicate⟩

/-- A vector for one of them, in chunks of 2 MiB. -/
theorem exists_large (made : VMMVector → Prop) (ok : VMMVector → VecOp large → Prop)
    (hmade : ∀ v : VMMVector, v.maxCapacity = 1 → made v) :
    ∃ x : Vec large, x.Reached made ok ∧ x.v = { dPtr := 0x7f0000000000, maxCapacity := 1, chunkSize := 0x200000, chunkFits := 1 } := by
  have hempty : Cuda.Contained ({} : Cuda Memory) := by
    intro va m hm
    simp at hm
  have hrun : Prog.Runs Cuda.checked ((VMMVector.make large 1 0x200000 0 true).run {}) {}
      (.ok (), { dPtr := 0x7f0000000000, maxCapacity := 1, chunkSize := 0x200000, chunkFits := 1 })
      (Cuda.after {} (.reserve 0x200000 0) 0x7f0000000000 (fun _ => 0)) := by
    refine .op (r := 0x200000) ⟨trivial, trivial, fun _ => 0, rfl⟩ ?_
    refine .op (r := 0x7f0000000000) ⟨?_, ⟨⟨?_, ?_, ?_, fun va len hlen => ?_⟩, ?_⟩, fun _ => 0, rfl⟩ (.ret _ _)
    · show (0x200000 : Size) ≠ 0
      decide
    · show (0x200000 : Size) ≠ 0
      decide
    · decide
    · show (0x7f0000000000 : Ptr).toNat + (0x200000 : Size).toNat ≤ 2 ^ 64
      decide
    · have hlen : (∅ : OrdMap Ptr Size)[va]? = some len := hlen
      simp at hlen
    · show (0x7f0000000000 : Ptr).toNat + (0x200000 : Size).toNat < 2 ^ 64
      decide
  exact ⟨_, .make hempty (by decide) hrun (hmade _ rfl), rfl⟩

end VectorAux

/-- A vector for one element throws at the first `push_back`: it wants room for two. -/
theorem vector_not_whole_capacity : ∃ x : Vec large, x.Reached (fun _ => True) (fun _ _ => True) ∧ x.v.size ≠ x.v.maxCapacity ∧
    Prog.Runs Cuda.checked ((VMMVector.pushBack large large.default).run x.v) x.d (.error .maxCapacity, x.v) x.d := by
  obtain ⟨x, hx, hv⟩ := exists_large (fun _ => True) (fun _ _ => True) fun _ _ => trivial
  refine ⟨x, hx, by rw [hv]; decide, ?_⟩
  rw [hv]
  exact .ret _ _

end Vmem
