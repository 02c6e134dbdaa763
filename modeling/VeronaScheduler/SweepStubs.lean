import VeronaScheduler.Move

/- Stub collection and the sweep (lines 171–179, 556–640, 688–702).

   `collect_cown_stubs` returns at once only in `ReallyDone_Confirm` and
   `Finished` (`stubsGuarded`): every drain a thread makes carries a state
   outside those two, and it is the thread's state at that moment
   (`drain_state`). But `ld_protocol` returns as soon as `next_state` answers
   the current state, so a thread that has just swept (`collect_cowns` in
   `Sweep`) and is told `Sweep` again goes back to `run_inner` in `Sweep`, and
   the sparse-registry test at the head of the next iteration drains its
   registry there, while this thread, and any other still sweeping, is in
   `Sweep`: the run `sweepSteps` (`stubs_collected_in_sweep`). -/
namespace Verona.Rt

variable {W : Nat}

/-- Every drain of a move is made in the thread's state, which the guard of
`collect_cown_stubs` does not stop. -/
theorem Move.drain {cfg : Config W} {i : Fin W} {a : Answer} {s : Sys W} {w : Worker W}
    {s' : Sys W} {es : List (Event W)} (hm : Move cfg i a s w s' es) {st : ThreadState}
    (h : .drain st ∈ es) : st = w.state ∧ stubsGuarded st = false := by
  cases hm
  case collectStubs | phase2 => split at h <;> simp_all
  all_goals simp_all [Worker.enterScan, Worker.enterPrescan]

/-- Every drain of a step is made in the stepping thread's state. -/
theorem drain_state (cfg : Config W) (l : Label W) (s : Sys W) {i : Fin W} {st : ThreadState}
    (h : (i, .drain st) ∈ (next cfg l s).2) :
    st = (s.worker i).state ∧ stubsGuarded st = false := by
  cases l with
  | worker j a =>
    simp only [next, List.mem_map, Prod.mk.injEq] at h
    obtain ⟨e, he, rfl, rfl⟩ := h
    exact (workerStep_move cfg _ a s).drain he
  | env e =>
    cases e <;> simp_all [next, envStep, scheduleFifo]
    split at h <;> simp_all

end Verona.Rt
