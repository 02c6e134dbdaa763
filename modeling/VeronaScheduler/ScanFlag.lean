import VeronaScheduler.Checkpoint
import VeronaScheduler.Move

/- `scheduled_unscanned_cown` over whole runs (lines 109–125, 224–228 and
   667–680).

   `schedule_fifo` raises the flag on a cown not scanned in `send_epoch`, the
   test of line 224 raises it on a cown about to run whose mark is not
   `send_epoch` while a scan is on, and `enter_scan` lowers it; nothing else
   writes it. So in every reachable state of any run the flag says exactly
   whether the thread has reported such a cown since its last `enter_scan`
   (`flag_tracks_unscanned`), which is what `ld_protocol` reads when it answers
   `BelieveDone` with a retraction or a confirmation (lines 604–611) and when
   the checkpoint decides between a vote and a new scan (lines 541–554).
   `ScanInv.flag` gives one half of this under `NothingOldSound`; here both
   halves hold under any admission. -/
namespace Verona.Rt

variable {W : Nat}

@[simp] theorem Event.unscanned_scheduleFifo (x : Item W) (sc : Bool) :
    (Event.scheduleFifo x sc).unscanned = !sc := by
  cases sc <;> rfl

@[simp] theorem Event.unscanned_scanCheck (x : Item W) (u : Bool) :
    (Event.scanCheck x u).unscanned = u := by
  cases u <;> rfl

/-- A step of a thread either ends with its `enter_scan`, which lowers the
flag, or reports no `enter_scan` and raises the flag exactly when it reports
an unscanned cown. -/
theorem Move.scanFlag {cfg : Config W} {i : Fin W} {a : Answer} {s : Sys W} {w : Worker W}
    {s' : Sys W} {es : List (Event W)} (hm : Move cfg i a s w s' es) :
    (es.getLast? = some (.enterScan (s.core i).q) ∧ (s'.worker i).scheduledUnscannedCown = false) ∨
      ((∀ e ∈ es, e.isScan = false) ∧ (s'.worker i).scheduledUnscannedCown =
        (w.scheduledUnscannedCown || es.any Event.unscanned)) := by
  cases hm
  case phase2 => split <;> simp_all [Event.isScan, Event.unscanned]
  all_goals
    (try simp only [List.any_cons, List.any_nil, Event.unscanned_scheduleFifo,
      Event.unscanned_scanCheck])
    simp_all [Worker.enterScan, Worker.enterPrescan, Worker.ldStateChange, Event.isScan, Event.unscanned]

section Flag

variable {cfg : Config W} {Adm : Trace W → Sys W → Label W → Prop}

/-- A step that reports no `enter_scan` of thread `i` keeps the flag exact if it
raises the flag by the unscanned cowns it reports on `i`. -/
theorem flag_exact_no_scan {i : Fin W} {tr es : Trace W} {f f' : Bool}
    (ih : f = (threadEvents i (sinceScan i tr).2).any Event.unscanned)
    (hno : ∀ p ∈ es, p.1 = i → p.2.isScan = false)
    (hf : f' = (f || (threadEvents i es).any Event.unscanned)) :
    f' = (threadEvents i (sinceScan i (tr ++ es)).2).any Event.unscanned := by
  rw [sinceScan_append, foldl_scanStep_of_not_scan _ hno, threadEvents_append, List.any_append, hf, ih]

/-- One step of the system keeps thread `i`'s flag exact. -/
theorem next_flag_exact (s : Sys W) {tr : Trace W} {i : Fin W}
    (ih : (s.worker i).scheduledUnscannedCown = (threadEvents i (sinceScan i tr).2).any Event.unscanned)
    (l : Label W) :
    ((next cfg l s).1.worker i).scheduledUnscannedCown =
      (threadEvents i (sinceScan i (tr ++ (next cfg l s).2)).2).any Event.unscanned := by
  cases l with
  | worker j a =>
    rcases eq_or_ne j i with rfl | hj
    · rcases (workerStep_move cfg j a s).scanFlag with ⟨hl, hf⟩ | ⟨hno, hf⟩
      · simp only [next, sinceScan_append]
        rw [← List.dropLast_append_getLast? _ hl, foldl_scanStep_scan]
        simpa using hf
      · refine flag_exact_no_scan ih (fun p hp _ => ?_) (by simpa [next] using hf)
        obtain ⟨e, he, rfl⟩ := List.mem_map.mp hp
        exact hno e he
    · refine flag_exact_no_scan ih (fun p hp hpi => ?_) ?_
      · obtain ⟨e, -, rfl⟩ := List.mem_map.mp hp
        exact absurd hpi hj
      · simp [next, workerStep_worker_ne cfg j a s (Ne.symm hj), hj]
  | env e =>
    refine flag_exact_no_scan ih (fun p hp _ => envStep_not_scan e s p hp) ?_
    rcases envStep_thread e s i with ⟨he, h | h | h⟩ | ⟨c, he, h⟩ | ⟨x, sc, he, h⟩ <;>
      simp only [next, he, h, Worker.wantLd_eq, List.any_cons, List.any_nil,
        Event.unscanned_scheduleFifo] <;> simp [Event.unscanned]

/-- **The flag is exact.** In every reachable state of any run, thread `i`'s
`scheduled_unscanned_cown` is true exactly when, since its last `enter_scan`,
a `schedule_fifo` on it took a cown not scanned in `send_epoch` or the test of
line 224 found the cown about to run unscanned while a scan was on. -/
theorem flag_tracks_unscanned {s₀ : Sys W} {tr : Trace W} {s : Sys W} (hr : Reach cfg Adm s₀ tr s)
    (i : Fin W) :
    (s.worker i).scheduledUnscannedCown = (threadEvents i (sinceScan i tr).2).any Event.unscanned := by
  induction hr with
  | init h => simp [h.worker i, initWorker, sinceScan]
  | step l _ _ _ ih => exact next_flag_exact _ ih l

/-- A scan is on, and `cown->run` returns true. -/
def scanAnswer : Answer := ⟨false, false, .notInLD, true, true, fun _ => false⟩

/-- Cown `5` marks itself in epoch B while the thread's `send_epoch` is A; five
steps later the test of line 224 has found it unscanned and raised the flag. -/
theorem flag_tracks_unscanned_on_mark :
    let cfg := Config.ring 0 false false
    let s₁ := next cfg (.env (.setEpochMark 5 .epochB)) swapStart
    let r := runSteps cfg (List.replicate 5 (0, scanAnswer)) ([] ++ s₁.2, s₁.1)
    Reach cfg anyStep swapStart r.1 r.2 ∧ (r.2.worker 0).scheduledUnscannedCown = true ∧
      (r.2.worker 0).scheduledUnscannedCown =
        (threadEvents 0 (sinceScan 0 r.1).2).any Event.unscanned :=
  have hr := reach_runSteps _ (fun _ _ _ _ => trivial)
    (.step (.env (.setEpochMark 5 .epochB)) (.init swapStart_init) trivial trivial)
  ⟨hr, by decide, flag_tracks_unscanned hr 0⟩

end Flag

end Verona.Rt
