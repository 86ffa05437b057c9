import Vmem.Lemmas.Fencing

/-!
# Fencing and fail-stop

Memory moves and goes only behind a fence, and a fatal error stops everything.
-/

namespace Vmem

open FencingAux

/-- For every run of an app with any kernel launches and over any backend and any result of every sync: each `move` and `destroy` of
the backend, in any call and in the destructor, comes after a successful sync with no kernel launched since, and after a failed sync
or a `Fatal` result no `create`, `move` or `destroy` comes at all. After such an error every `alloc`, and every `free` of a pointer
that is not null, throws `Fatal`, and every hint returns `Fatal`; a hint never throws. -/
theorem fenced_and_fail_stop (x : App Fence) (h : x.Reached Fence.world Fence.launch (fun _ _ => True) {}) :
    (∀ c : AppCall, Throwing.wp Fence.world c.program (fun _ _ _ => True) (fun _ _ _ => True) x.a x.s) ∧
    Throwing.wp Fence.world Allocator.destruct (fun _ _ _ => True) (fun _ _ _ => False) x.a { x.s with ending := true } ∧
    (∀ (p : Ptr) (target : Loc),
      Throwing.wp Fence.world (Allocator.move p target) (fun _ _ _ => True) (fun _ _ _ => False) x.a x.s) ∧
    (x.s.broken = true →
      (∀ bytes : Size, Throwing.wp Fence.world (Allocator.alloc bytes) (fun _ _ _ => False)
        (fun e a' s' => e.status = .fatal ∧ a' = x.a ∧ s' = x.s) x.a x.s) ∧
      (∀ p : Ptr, p ≠ 0 → Throwing.wp Fence.world (Allocator.free p) (fun _ _ _ => False)
        (fun e a' s' => e.status = .fatal ∧ a' = x.a ∧ s' = x.s) x.a x.s) ∧
      ∀ (p : Ptr) (target : Loc), Throwing.wp Fence.world (Allocator.move p target) (fun s _ _ => s = .fatal)
        (fun _ _ _ => False) x.a x.s) := by
  have hstep := reached_inStep h
  refine ⟨fun c => ?_, ?_, fun p target => ?_, fun hb => ?_⟩
  · exact Throwing.wp_mono (keepsStep_program c _ _ hstep) (fun _ _ _ _ => trivial) fun _ _ _ _ => trivial
  · exact destruct_wp hstep.1 rfl
  · exact Throwing.wp_mono (move_wp p target hstep) (fun _ _ _ _ => trivial) fun _ _ _ h => h
  · have hd : x.a.dead = true := hstep.1.trans hb
    have hlive {α : Type} (y : AllocatorM α) : Throwing.wp Fence.world (do Allocator.live; y) (fun _ _ _ => False)
        (fun e a' s' => e.status = .fatal ∧ a' = x.a ∧ s' = x.s) x.a x.s := by
      unfold Allocator.live
      rw [Throwing.wp_bind, Throwing.wp_bind, Throwing.wp_get, if_pos hd]
      exact ⟨rfl, rfl, rfl⟩
    refine ⟨fun bytes => hlive _, fun p hp => ?_, fun p target => ?_⟩
    · unfold Allocator.free
      rw [if_neg hp]
      exact hlive _
    · exact Throwing.wp_mono (move_wp p target hstep) (fun _ _ _ h => (h.2 hd).1) fun _ _ _ h => h

/-- The backend cannot create a chunk and says `Fatal`: a later `free` throws. -/
theorem fenced_and_fail_stop_broken : ∃ x : App Fence, x.s.broken = true ∧
    Throwing.wp Fence.world (Allocator.free 64) (fun _ _ _ => False)
      (fun e a' s' => e.status = .fatal ∧ a' = x.a ∧ s' = x.s) x.a x.s := by
  have hbuilt : App.Reached Fence.world Fence.launch (fun _ _ => True) {} ⟨{ cfg := { smallMax := 0, smallChunk := 4 } }, {}, []⟩ :=
    @App.Reached.built _ _ _ _ _ { smallMax := 0, smallChunk := 4 } {} _ _
      (Prog.runs_ask () rfl (Prog.runs_ask .ok rfl (Prog.runs_ask (2 : Size) rfl (.ret _ _))))
  have hbroken := hbuilt.call (c := .alloc 4) trivial (Prog.runs_ask (2 : Size) rfl (Prog.runs_ask (.fatal, {}) rfl (.ret _ _)))
  exact ⟨_, rfl, ((fenced_and_fail_stop _ hbroken).2.2.2 rfl).2.1 64 (by decide)⟩

end Vmem
