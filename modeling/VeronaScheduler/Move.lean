import VeronaScheduler.Step

/- What one step of a thread can do, said once.

   `Move cfg i a s w s' es` lists the outcomes of a step of thread `i`, whose
   record is `w`, in the system `s` with the environment's answers `a`: one
   constructor for each path through the step functions of `run_inner`, from
   the head of its main loop to the end of its teardown, with the tests the
   code makes on the way (the program point, the slot, the head of the queue it
   dequeues from, the answers), the system `s'` the step leaves, and the
   events `es` it reports. Each `s'` is the thread's new record set over what
   the step's queue operation, registry update or counter update made of `s`.
   `workerStep_move` proves, one step function at a time, that every step of
   the model is one of them, and every fact about one step of a thread, here
   and in the files that import this one, is read off `Move` by cases, without
   unfolding a step function again.

   Proved here, for the files that follow: no other thread's record changes
   (`Move.worker_ne`); the cown table and the registries change only by the
   stub collections at the head of the loop and in teardown phase 2 and by the
   registration in `prerun` (`Move.registry`); and `servicing_threads` changes
   only by the thread's own `fetch_sub` (`Move.servicingThreads`). An
   environment action changes the cores apart from their queues only when a
   cown loses its last weak reference (`envStep_cores`). -/
namespace Verona.Rt

variable {W : Nat}

/-- The outcomes of one step of thread `i` with record `w`. -/
inductive Move (cfg : Config W) (i : Fin W) (a : Answer) (s : Sys W) (w : Worker W) :
    Sys W → List (Event W) → Prop
  /-- Lines 173–179: a sparse registry is collected; the drain is reported when
  the guard of `collect_cown_stubs` lets it through. -/
  | collectStubs (hpc : w.pc = .top) (h : (s.core i).totalCowns < wrapShl (s.core i).freeCowns) :
      Move cfg i a s w
        ((s.setCore i (collectCownStubs (stubEnv s.cownOf a.isOutdated false cfg.detectLeaks) w.state
          (s.core i))).setWorker i { w with pc := .fairness })
        (if stubsGuarded w.state then [] else [.drain w.state])
  | skipStubs (hpc : w.pc = .top) (h : ¬(s.core i).totalCowns < wrapShl (s.core i).freeCowns) :
      Move cfg i a s w (s.setWorker i { w with pc := .fairness }) []
  /-- Lines 181–188: the fairness steal dequeues from the victim, finds it
  empty, or skips it as the thread's own core. -/
  | fairnessSteal {x : Item W} {rest : List (Item W)} (hpc : w.pc = .fairness)
      (hf : w.shouldStealForFairness = true) (hc : w.cown = none) (hv : w.victim ≠ i)
      (hq : (s.core w.victim).q = x :: rest) :
      Move cfg i a s w ((s.setQ w.victim rest).setWorker i
          { w with shouldStealForFairness := false, cown := some x, pc := .popLocal })
        [.stealAttempt w.victim (some (some x)), .dequeue w.victim x]
  | fairnessEmpty (hpc : w.pc = .fairness) (hf : w.shouldStealForFairness = true)
      (hc : w.cown = none) (hv : w.victim ≠ i) (hq : (s.core w.victim).q = []) :
      Move cfg i a s w (s.setWorker i { w with
          shouldStealForFairness := false, victim := cfg.next w.victim, cown := none,
          pc := .popLocal }) [.stealAttempt w.victim (some none)]
  | fairnessSelf (hpc : w.pc = .fairness) (hf : w.shouldStealForFairness = true)
      (hc : w.cown = none) (hv : w.victim = i) :
      Move cfg i a s w (s.setWorker i { w with
          shouldStealForFairness := false, victim := cfg.next w.victim, cown := none,
          pc := .popLocal }) [.stealAttempt w.victim none]
  | noFairness (hpc : w.pc = .fairness) (h : ¬(w.shouldStealForFairness = true ∧ w.cown = none)) :
      Move cfg i a s w (s.setWorker i { w with pc := .popLocal }) []
  /-- Lines 190–200. -/
  | popHeld {x : Item W} (hpc : w.pc = .popLocal) (hc : w.cown = some x) :
      Move cfg i a s w (s.setWorker i { w with pc := .prerun }) []
  | pop {x : Item W} {rest : List (Item W)} (hpc : w.pc = .popLocal) (hc : w.cown = none)
      (hq : (s.core i).q = x :: rest) :
      Move cfg i a s w ((s.setQ i rest).setWorker i { w with cown := some x, pc := .prerun })
        [.dequeue i x]
  | popEmpty (hpc : w.pc = .popLocal) (hc : w.cown = none) (hq : (s.core i).q = []) :
      Move cfg i a s w (s.setWorker i { w with pc := .steal }) []
  /-- Lines 378–388 and 203. -/
  | stealNothingOld (hpc : w.pc = .steal) (hr : w.running = true) (hn : a.nothingOld = true) :
      Move cfg i a s w (s.setWorker i { w with nLdTokens := 0, pc := .ldEntry .steal }) []
  | stealOld (hpc : w.pc = .steal) (hr : w.running = true) (hn : a.nothingOld = false) :
      Move cfg i a s w (s.setWorker i { w with pc := .ldEntry .steal }) []
  | stealStop (hpc : w.pc = .steal) (hr : w.running = false) :
      Move cfg i a s w (s.setWorker i { w with pc := .exit }) [.leaveLoop]
  /-- Lines 540–554: the checkpoint votes, re-scans, or is not reached. -/
  | checkpointVote {r : LdCaller} (hpc : w.pc = .ldEntry r) (hst : w.state = .allInScan)
      (hn : w.ldCheckpointReached = true) (hu : w.scheduledUnscannedCown = false)
      (hm : a.noInflightMessages = true) :
      Move cfg i a s w (s.setWorker i { w.ldStateChange .believeDoneVote with pc := .ldLoop r }) []
  | checkpointRescan {r : LdCaller} (hpc : w.pc = .ldEntry r) (hst : w.state = .allInScan)
      (hn : w.ldCheckpointReached = true)
      (h : ¬(w.scheduledUnscannedCown = false ∧ a.noInflightMessages = true)) :
      Move cfg i a s w (s.setWorker i { (w.enterScan (s.core i).q).1 with pc := .ldLoop r })
        (w.enterScan (s.core i).q).2
  | checkpointPass {r : LdCaller} (hpc : w.pc = .ldEntry r)
      (h : ¬(w.state = .allInScan ∧ w.ldCheckpointReached = true)) :
      Move cfg i a s w (s.setWorker i { w with pc := .ldLoop r }) []
  /-- Lines 558–639: one pass of the loop of `ld_protocol`, by `next_state`'s answer. -/
  | ldReturn {r : LdCaller} (hpc : w.pc = .ldLoop r) (h : a.nextState = w.state) :
      Move cfg i a s w (s.setWorker i { w with pc := r.resume }) []
  | ldPreScan {r : LdCaller} (hpc : w.pc = .ldLoop r) (hne : a.nextState ≠ w.state)
      (hn : a.nextState = .preScan) :
      Move cfg i a s w
        (s.setWorker i { (w.ldStateChange .preScan).enterPrescan.1 with pc := r.resume })
        (w.ldStateChange .preScan).enterPrescan.2
  | ldScan {r : LdCaller} (hpc : w.pc = .ldLoop r) (hne : a.nextState ≠ w.state)
      (hn : a.nextState = .scan) (hp : w.state ≠ .preScan) :
      Move cfg i a s w (s.setWorker i
          { ((w.ldStateChange .scan).enterPrescan.1.enterScan (s.core i).q).1 with pc := r.resume })
        ((w.ldStateChange .scan).enterPrescan.2 ++
          ((w.ldStateChange .scan).enterPrescan.1.enterScan (s.core i).q).2)
  | ldScanAfterPreScan {r : LdCaller} (hpc : w.pc = .ldLoop r) (hne : a.nextState ≠ w.state)
      (hn : a.nextState = .scan) (hp : w.state = .preScan) :
      Move cfg i a s w (s.setWorker i
          { ((w.ldStateChange .scan).enterScan (s.core i).q).1 with pc := r.resume })
        ((w.ldStateChange .scan).enterScan (s.core i).q).2
  | ldAllInScanAfterPreScan {r : LdCaller} (hpc : w.pc = .ldLoop r)
      (hne : a.nextState ≠ w.state) (hn : a.nextState = .allInScan) (hp : w.state = .preScan) :
      Move cfg i a s w (s.setWorker i
          { ((w.ldStateChange .allInScan).enterScan (s.core i).q).1 with pc := r.resume })
        ((w.ldStateChange .allInScan).enterScan (s.core i).q).2
  | ldAllInScan {r : LdCaller} (hpc : w.pc = .ldLoop r) (hne : a.nextState ≠ w.state)
      (hn : a.nextState = .allInScan) (hp : w.state ≠ .preScan) :
      Move cfg i a s w (s.setWorker i { w.ldStateChange .allInScan with pc := r.resume }) []
  | ldRetract {r : LdCaller} (hpc : w.pc = .ldLoop r) (hne : a.nextState ≠ w.state)
      (hn : a.nextState = .believeDone) (hu : w.scheduledUnscannedCown = true) :
      Move cfg i a s w (s.setWorker i
        { (w.ldStateChange .believeDone).ldStateChange .believeDoneRetract with pc := .ldLoop r }) []
  | ldConfirm {r : LdCaller} (hpc : w.pc = .ldLoop r) (hne : a.nextState ≠ w.state)
      (hn : a.nextState = .believeDone) (hu : w.scheduledUnscannedCown = false) :
      Move cfg i a s w (s.setWorker i
        { (w.ldStateChange .believeDone).ldStateChange .believeDoneConfirm with pc := .ldLoop r }) []
  | ldSweep {r : LdCaller} (hpc : w.pc = .ldLoop r) (hne : a.nextState ≠ w.state)
      (hn : a.nextState = .sweep) :
      Move cfg i a s w (s.setWorker i { w.ldStateChange .sweep with pc := .ldLoop r })
        [.tryCollect (w.ldStateChange .sweep).sendEpoch]
  | ldOther {r : LdCaller} (hpc : w.pc = .ldLoop r) (hne : a.nextState ≠ w.state)
      (h₁ : a.nextState ≠ .preScan) (h₂ : a.nextState ≠ .scan) (h₃ : a.nextState ≠ .allInScan)
      (h₄ : a.nextState ≠ .believeDone) (h₅ : a.nextState ≠ .sweep) :
      Move cfg i a s w (s.setWorker i { w.ldStateChange a.nextState with pc := .ldLoop r }) []
  /-- Lines 390–394. -/
  | stealLocal {x : Item W} {rest : List (Item W)} (hpc : w.pc = .stealLocal)
      (hq : (s.core i).q = x :: rest) :
      Move cfg i a s w ((s.setQ i rest).setWorker i { w with cown := some x, pc := .prerun })
        [.dequeue i x]
  | stealLocalEmpty (hpc : w.pc = .stealLocal) (hq : (s.core i).q = []) :
      Move cfg i a s w (s.setWorker i { w with pc := .stealVictim }) []
  /-- Lines 396–438: the attempt on the victim. -/
  | stealVictim {x : Item W} {rest : List (Item W)} (hpc : w.pc = .stealVictim)
      (hv : w.victim ≠ i) (hq : (s.core w.victim).q = x :: rest) :
      Move cfg i a s w ((s.setQ w.victim rest).setWorker i { w with cown := some x, pc := .prerun })
        [.stealAttempt w.victim (some (some x)), .dequeue w.victim x]
  | stealVictimEmpty (hpc : w.pc = .stealVictim) (hv : w.victim ≠ i)
      (hq : (s.core w.victim).q = []) :
      Move cfg i a s w (s.setWorker i { w with victim := cfg.next w.victim, pc := .steal })
        [.stealAttempt w.victim (some none)]
  | stealVictimSelf (hpc : w.pc = .stealVictim) (hv : w.victim = i) :
      Move cfg i a s w (s.setWorker i { w with victim := cfg.next w.victim, pc := .steal })
        [.stealAttempt w.victim none]
  /-- Lines 208–212 and 462–509: `prerun` on the thread's own token, another
  core's token, a cown, or an empty slot. -/
  | prerunOwnToken (hpc : w.pc = .prerun) (hc : w.cown = some (.token i)) :
      Move cfg i a s w ((s.enqueue i (.token i)).setWorker i { w with
          shouldStealForFairness := w.shouldStealForFairness || cfg.fair
          nLdTokens := if 0 < w.nLdTokens then w.nLdTokens - 1 else w.nLdTokens
          cown := none, pc := .top }) [.enqueue i (.token i)]
  | prerunToken {k : Fin W} (hpc : w.pc = .prerun) (hc : w.cown = some (.token k)) (hk : k ≠ i) :
      Move cfg i a s w ((s.enqueue k (.token k)).setWorker i { w with cown := none, pc := .top })
        [.enqueue k (.token k)]
  | prerunCown {c : CownId} (hpc : w.pc = .prerun) (hc : w.cown = some (.cown c)) :
      Move cfg i a s w (((s.setCore i (register i s.cownOf (s.core i) c).2).setCownOf
          (register i s.cownOf (s.core i) c).1).setWorker i { w with pc := .scanHint }) []
  | prerunEmpty (hpc : w.pc = .prerun) (hc : w.cown = none) :
      Move cfg i a s w (s.setWorker i { w with pc := .top }) []
  /-- Lines 224–228. -/
  | scanHint {x : Item W} (hpc : w.pc = .scanHint) (hc : w.cown = some x) :
      Move cfg i a s w (s.setWorker i { w with
          scheduledUnscannedCown :=
            w.scheduledUnscannedCown || (a.shouldScan && !s.scanned x w.sendEpoch)
          pc := .ldEntry .runInner }) [.scanCheck x (a.shouldScan && !s.scanned x w.sendEpoch)]
  | scanHintEmpty (hpc : w.pc = .scanHint) (hc : w.cown = none) :
      Move cfg i a s w (s.setWorker i { w with pc := .ldEntry .runInner }) []
  /-- Lines 234–246: the progress counters, then `cown->run`, by what it returned. -/
  | dispatchReschedule {x : Item W} (hpc : w.pc = .dispatch) (hc : w.cown = some x)
      (hr : a.reschedule = true) :
      Move cfg i a s w ((countDispatch i s x).setWorker i { w with pc := .reschedule })
        [.run x true]
  | dispatchDone {x : Item W} (hpc : w.pc = .dispatch) (hc : w.cown = some x)
      (hr : a.reschedule = false) :
      Move cfg i a s w ((countDispatch i s x).setWorker i { w with cown := none, pc := .top })
        [.run x false]
  | dispatchEmpty (hpc : w.pc = .dispatch) (hc : w.cown = none) :
      Move cfg i a s w (s.setWorker i { w with pc := .top }) []
  /-- Lines 248–262. -/
  | rescheduleFair {x : Item W} (hpc : w.pc = .reschedule) (hf : w.shouldStealForFairness = true)
      (hc : w.cown = some x) :
      Move cfg i a s w ((s.enqueue i x).setWorker i { w with
          scheduledUnscannedCown := w.scheduledUnscannedCown || !s.scanned x w.sendEpoch
          cown := none, pc := .top }) [.scheduleFifo x (s.scanned x w.sendEpoch), .enqueue i x]
  | rescheduleFairEmpty (hpc : w.pc = .reschedule) (hf : w.shouldStealForFairness = true)
      (hc : w.cown = none) :
      Move cfg i a s w (s.setWorker i { w with pc := .top }) []
  | reschedulePop {n : Item W} {rest : List (Item W)} (hpc : w.pc = .reschedule)
      (hf : w.shouldStealForFairness = false) (hq : (s.core i).q = n :: rest) :
      Move cfg i a s w ((s.setQ i rest).setWorker i { w with pc := .swap n }) [.dequeue i n]
  | rescheduleEmpty (hpc : w.pc = .reschedule) (hf : w.shouldStealForFairness = false)
      (hq : (s.core i).q = []) :
      Move cfg i a s w (s.setWorker i { w with pc := .queueEmpty }) []
  /-- Lines 266–267 and 280–281. -/
  | swap {n x : Item W} (hpc : w.pc = .swap n) (hc : w.cown = some x) :
      Move cfg i a s w ((s.enqueue i x).setWorker i { w with
          scheduledUnscannedCown := w.scheduledUnscannedCown || !s.scanned x w.sendEpoch
          cown := some n, pc := .top }) [.scheduleFifo x (s.scanned x w.sendEpoch), .enqueue i x]
  | swapEmpty {n : Item W} (hpc : w.pc = .swap n) (hc : w.cown = none) :
      Move cfg i a s w (s.setWorker i { w with cown := some n, pc := .top }) []
  /-- Lines 271–276. -/
  | queueEmptyFair (hpc : w.pc = .queueEmpty) (hn : a.nothingOld = true) (hf : cfg.fair = true) :
      Move cfg i a s w (s.setWorker i { w with nLdTokens := 0, pc := .fairSteal }) []
  | queueEmptyUnfair (hpc : w.pc = .queueEmpty) (hn : a.nothingOld = true)
      (hf : cfg.fair = false) :
      Move cfg i a s w (s.setWorker i { w with nLdTokens := 0, pc := .top }) []
  | queueEmptyOld (hpc : w.pc = .queueEmpty) (hn : a.nothingOld = false) :
      Move cfg i a s w (s.setWorker i { w with pc := .top }) []
  /-- Line 278. -/
  | fairSteal {x : Item W} {rest : List (Item W)} (hpc : w.pc = .fairSteal) (hv : w.victim ≠ i)
      (hq : (s.core w.victim).q = x :: rest) :
      Move cfg i a s w ((s.setQ w.victim rest).setWorker i { w with pc := .swap x })
        [.stealAttempt w.victim (some (some x)), .dequeue w.victim x]
  | fairStealEmpty (hpc : w.pc = .fairSteal) (hv : w.victim ≠ i) (hq : (s.core w.victim).q = []) :
      Move cfg i a s w (s.setWorker i { w with victim := cfg.next w.victim, pc := .top })
        [.stealAttempt w.victim (some none)]
  | fairStealSelf (hpc : w.pc = .fairSteal) (hv : w.victim = i) :
      Move cfg i a s w (s.setWorker i { w with victim := cfg.next w.victim, pc := .top })
        [.stealAttempt w.victim none]
  /-- Teardown phase 1 (line 309): one value of the queue is released, or the
  queue is empty and the phase ends. -/
  | collectOne {x : Item W} {rest : List (Item W)} (hpc : w.pc = .exit)
      (hq : (s.core i).q = x :: rest) :
      Move cfg i a s w ((s.setQ i rest).setWorker i w) [.dequeue i x, .collected x]
  | collectDone (hpc : w.pc = .exit) (hq : (s.core i).q = []) :
      Move cfg i a s w (s.setWorker i { w with pc := .barrier }) [.phase1Done]
  /-- Line 313: the barrier holds the thread until every thread has reached it. -/
  | barrierWait (hpc : w.pc = .barrier) (h : ¬∀ j, (s.worker j).pc.atBarrier = true) :
      Move cfg i a s w (s.setWorker i w) []
  | barrierPass (hpc : w.pc = .barrier) (h : ∀ j, (s.worker j).pc.atBarrier = true) :
      Move cfg i a s w (s.setWorker i { w with pc := .phase2 }) [.passBarrier]
  /-- Lines 317–321: the teardown stub collection. -/
  | phase2 (hpc : w.pc = .phase2) :
      Move cfg i a s w
        ((s.setCore i (collectCownStubs (stubEnv s.cownOf a.isOutdated true cfg.detectLeaks) w.state
          (s.core i))).setWorker i { w with pc := .release })
        ((if stubsGuarded w.state then [] else [.drain w.state]) ++ [.phase2Done])
  /-- Lines 323–331: `fetch_sub(1)`, and the destruction by the thread that reads `1`. -/
  | release (hpc : w.pc = .release) :
      Move cfg i a s w ((s.setCore i { s.core i with
          servicingThreads := wrapSub (s.core i).servicingThreads 1 }).setWorker i
          { w with pc := if (s.core i).servicingThreads = 1 then .destroy else .finished })
        [.fetchSub (s.core i).servicingThreads]
  | destroy (hpc : w.pc = .destroy) :
      Move cfg i a s w (s.setWorker i { w with pc := .finished }) [.destroyQueue]
  | finished (hpc : w.pc = .finished) : Move cfg i a s w (s.setWorker i w) []

/-! ## Every step is a move -/

section Step

variable (cfg : Config W) (i : Fin W) (a : Answer) (s : Sys W)

theorem topStep_move (hpc : (s.worker i).pc = .top) :
    Move cfg i a s (s.worker i) (topStep cfg i a s).1 (topStep cfg i a s).2 := by
  simp only [topStep]
  split
  next h => exact Move.collectStubs hpc h
  next h => exact Move.skipStubs hpc h

theorem fairnessStep_move (hpc : (s.worker i).pc = .fairness) :
    Move cfg i a s (s.worker i) (fairnessStep cfg i s).1 (fairnessStep cfg i s).2 := by
  simp only [fairnessStep]
  split
  next h =>
    simp only [fastSteal, Sys.setWorker_worker, Function.update_same, Sys.setWorker_core]
    split
    next hv =>
      split
      next x rest hq => simpa [Sys.setQ_setWorker] using Move.fairnessSteal hpc h.1 h.2 hv hq
      next hq => simpa [h.2] using Move.fairnessEmpty hpc h.1 h.2 hv hq
    next hv => simpa [h.2] using Move.fairnessSelf hpc h.1 h.2 (not_not.1 hv)
  next h => exact Move.noFairness hpc h

theorem popLocalStep_move (hpc : (s.worker i).pc = .popLocal) :
    Move cfg i a s (s.worker i) (popLocalStep i s).1 (popLocalStep i s).2 := by
  simp only [popLocalStep]
  split
  next hc => exact Move.popHeld hpc hc
  next hc =>
    split
    next hq => exact Move.pop hpc hc hq
    next hq => exact Move.popEmpty hpc hc hq

theorem stealStep_move (hpc : (s.worker i).pc = .steal) :
    Move cfg i a s (s.worker i) (stealStep i a s).1 (stealStep i a s).2 := by
  simp only [stealStep]
  split
  next hr =>
    cases hn : a.nothingOld
    · simpa using Move.stealOld hpc hr hn
    · simpa using Move.stealNothingOld hpc hr hn
  next hr => exact Move.stealStop hpc (by simpa using hr)

theorem ldEntryStep_move {r : LdCaller} (hpc : (s.worker i).pc = .ldEntry r) :
    Move cfg i a s (s.worker i) (ldEntryStep i a r s).1 (ldEntryStep i a r s).2 := by
  simp only [ldEntryStep]
  split
  next h =>
    split
    next hv => exact Move.checkpointVote hpc h.1 h.2 hv.1 hv.2
    next hv => exact Move.checkpointRescan hpc h.1 h.2 hv
  next h => exact Move.checkpointPass hpc h

theorem ldLoopStep_move {r : LdCaller} (hpc : (s.worker i).pc = .ldLoop r) :
    Move cfg i a s (s.worker i) (ldLoopStep i a r s).1 (ldLoopStep i a r s).2 := by
  simp only [ldLoopStep]
  split
  next h => exact Move.ldReturn hpc h
  next hne =>
    split
    next hn => simpa [hn] using Move.ldPreScan hpc hne hn
    next hn =>
      split
      next hp => simpa [hn] using Move.ldScan hpc hne hn hp
      next hp => simpa [hn] using Move.ldScanAfterPreScan hpc hne hn (not_not.1 hp)
    next hn =>
      split
      next hp => simpa [hn] using Move.ldAllInScanAfterPreScan hpc hne hn hp
      next hp => simpa [hn] using Move.ldAllInScan hpc hne hn hp
    next hn =>
      split
      next hu => simpa [hn] using Move.ldRetract hpc hne hn hu
      next hu => simpa [hn] using Move.ldConfirm hpc hne hn (by simpa using hu)
    next hn => simpa [hn] using Move.ldSweep hpc hne hn
    next h₁ h₂ h₃ h₄ h₅ => exact Move.ldOther hpc hne h₁ h₂ h₃ h₄ h₅

theorem stealLocalStep_move (hpc : (s.worker i).pc = .stealLocal) :
    Move cfg i a s (s.worker i) (stealLocalStep i s).1 (stealLocalStep i s).2 := by
  simp only [stealLocalStep]
  split
  next hq => exact Move.stealLocal hpc hq
  next hq => exact Move.stealLocalEmpty hpc hq

theorem stealVictimStep_move (hpc : (s.worker i).pc = .stealVictim) :
    Move cfg i a s (s.worker i) (stealVictimStep cfg i s).1 (stealVictimStep cfg i s).2 := by
  simp only [stealVictimStep, fastSteal]
  by_cases hv : (s.worker i).victim = i
  · simpa [hv] using Move.stealVictimSelf hpc hv
  · cases hq : (s.core (s.worker i).victim).q with
    | nil => simpa [hv, hq] using Move.stealVictimEmpty hpc hv hq
    | cons x rest => simpa [hv, hq, Sys.setQ_setWorker] using Move.stealVictim hpc hv hq

theorem prerunStep_move (hpc : (s.worker i).pc = .prerun) :
    Move cfg i a s (s.worker i) (prerunStep cfg i s).1 (prerunStep cfg i s).2 := by
  simp only [prerunStep]
  split
  next k hc =>
    split
    next hk =>
      subst hk
      have := @Move.prerunOwnToken _ cfg _ a s _ hpc hc
      cases hf : cfg.fair <;> by_cases hn : 0 < (s.worker k).nLdTokens <;>
        simp only [hf, hn, ↓reduceIte, Bool.false_eq_true, Bool.or_false, Bool.or_true] at this ⊢ <;>
        simpa [Worker.decNLdTokens] using this
    next hk => exact Move.prerunToken hpc hc hk
  next c hc => exact Move.prerunCown hpc hc
  next hc => exact Move.prerunEmpty hpc hc

theorem scanHintStep_move (hpc : (s.worker i).pc = .scanHint) :
    Move cfg i a s (s.worker i) (scanHintStep i a s).1 (scanHintStep i a s).2 := by
  simp only [scanHintStep]
  split
  next x hc => exact Move.scanHint hpc hc
  next hc => exact Move.scanHintEmpty hpc hc

theorem dispatchStep_move (hpc : (s.worker i).pc = .dispatch) :
    Move cfg i a s (s.worker i) (dispatchStep i a s).1 (dispatchStep i a s).2 := by
  simp only [dispatchStep]
  split
  next x hc =>
    split
    next hr => exact Move.dispatchReschedule hpc hc hr
    next hr => exact Move.dispatchDone hpc hc (by simpa using hr)
  next hc => exact Move.dispatchEmpty hpc hc

theorem rescheduleStep_move (hpc : (s.worker i).pc = .reschedule) :
    Move cfg i a s (s.worker i) (rescheduleStep i s).1 (rescheduleStep i s).2 := by
  simp only [rescheduleStep]
  split
  next hf =>
    split
    next x hc => simpa [scheduleFifo, Sys.enqueue_setWorker] using Move.rescheduleFair hpc hf hc
    next hc => exact Move.rescheduleFairEmpty hpc hf hc
  next hf =>
    split
    next n rest hq => exact Move.reschedulePop hpc (by simpa using hf) hq
    next hq => exact Move.rescheduleEmpty hpc (by simpa using hf) hq

theorem swapStep_move {n : Item W} (hpc : (s.worker i).pc = .swap n) :
    Move cfg i a s (s.worker i) (swapStep i n s).1 (swapStep i n s).2 := by
  simp only [swapStep]
  split
  next x hc => simpa [scheduleFifo, Sys.enqueue_setWorker] using Move.swap hpc hc
  next hc => exact Move.swapEmpty hpc hc

theorem queueEmptyStep_move (hpc : (s.worker i).pc = .queueEmpty) :
    Move cfg i a s (s.worker i) (queueEmptyStep cfg i a s).1 (queueEmptyStep cfg i a s).2 := by
  simp only [queueEmptyStep]
  split
  next hn =>
    cases hf : cfg.fair
    · simpa [hf] using Move.queueEmptyUnfair hpc hn hf
    · simpa [hf] using Move.queueEmptyFair hpc hn hf
  next hn => exact Move.queueEmptyOld hpc (by simpa using hn)

theorem fairStealStep_move (hpc : (s.worker i).pc = .fairSteal) :
    Move cfg i a s (s.worker i) (fairStealStep cfg i s).1 (fairStealStep cfg i s).2 := by
  simp only [fairStealStep, fastSteal]
  by_cases hv : (s.worker i).victim = i
  · simpa [hv] using Move.fairStealSelf hpc hv
  · cases hq : (s.core (s.worker i).victim).q with
    | nil => simpa [hv, hq] using Move.fairStealEmpty hpc hv hq
    | cons x rest => simpa [hv, hq, Sys.setQ_setWorker] using Move.fairSteal hpc hv hq

theorem collectStep_move (hpc : (s.worker i).pc = .exit) :
    Move cfg i a s (s.worker i) (collectStep i s).1 (collectStep i s).2 := by
  simp only [collectStep]
  split
  next x rest hq => simpa [← Sys.setQ_setWorker] using Move.collectOne hpc hq
  next hq => exact Move.collectDone hpc hq

theorem barrierStep_move (hpc : (s.worker i).pc = .barrier) :
    Move cfg i a s (s.worker i) (barrierStep i s).1 (barrierStep i s).2 := by
  simp only [barrierStep]
  split
  next h => exact Move.barrierPass hpc h
  next h => simpa using @Move.barrierWait _ cfg i a s _ hpc h

/-- Every step of a thread is one of its moves. -/
theorem workerStep_move :
    Move cfg i a s (s.worker i) (workerStep cfg i a s).1 (workerStep cfg i a s).2 := by
  unfold workerStep
  split
  next hpc => exact topStep_move cfg i a s hpc
  next hpc => exact fairnessStep_move cfg i a s hpc
  next hpc => exact popLocalStep_move cfg i a s hpc
  next hpc => exact stealStep_move cfg i a s hpc
  next hpc => exact ldEntryStep_move cfg i a s hpc
  next hpc => exact ldLoopStep_move cfg i a s hpc
  next hpc => exact stealLocalStep_move cfg i a s hpc
  next hpc => exact stealVictimStep_move cfg i a s hpc
  next hpc => exact prerunStep_move cfg i a s hpc
  next hpc => exact scanHintStep_move cfg i a s hpc
  next hpc => exact dispatchStep_move cfg i a s hpc
  next hpc => exact rescheduleStep_move cfg i a s hpc
  next hpc => exact swapStep_move cfg i a s hpc
  next hpc => exact queueEmptyStep_move cfg i a s hpc
  next hpc => exact fairStealStep_move cfg i a s hpc
  next hpc => exact collectStep_move cfg i a s hpc
  next hpc => exact barrierStep_move cfg i a s hpc
  next hpc => exact Move.phase2 hpc
  next hpc => exact Move.release hpc
  next hpc => exact Move.destroy hpc
  next hpc => simpa using @Move.finished _ cfg i a s _ hpc

end Step

/-! ## The cores apart from their queues -/

/-- A core's record apart from its run queue. -/
def Core.unqueued (c : Core W) : Core W := { c with q := [] }

@[simp] theorem Core.unqueued_setQ (c : Core W) (q : List (Item W)) :
    ({ c with q } : Core W).unqueued = c.unqueued := rfl

@[simp] theorem unqueued_update_q (f : Fin W → Core W) (k j : Fin W) (q : List (Item W)) :
    (Function.update f k { f k with q } j).unqueued = (f j).unqueued := by
  rw [Function.update_apply]; split <;> simp_all

@[simp] theorem Core.registry_setQ (c : Core W) (q : List (Item W)) :
    ({ c with q } : Core W).registry = c.registry := rfl

@[simp] theorem Core.registry_setServicingThreads (c : Core W) (n : Nat) :
    ({ c with servicingThreads := n } : Core W).registry = c.registry := rfl

@[simp] theorem Sys.enqueue_core (s : Sys W) (k : Fin W) (x : Item W) :
    (s.enqueue k x).core = Function.update s.core k { s.core k with q := (s.core k).q ++ [x] } := rfl

section Fields

variable (f : Fin W → Core W) {k : Fin W} {c : Core W}

/-- Rewriting core `k` with a record that keeps one of its fields keeps that
field of every core. -/
theorem update_field {α : Type} (g : Core W → α) (h : g c = g (f k)) (j : Fin W) :
    g (Function.update f k c j) = g (f j) := by
  rw [Function.update_apply]; split <;> simp_all

@[simp] theorem Core.registry_update (h : c.registry = (f k).registry) (j : Fin W) :
    (Function.update f k c j).registry = (f j).registry := update_field f _ h j

@[simp] theorem Core.progressCounter_update (h : c.progressCounter = (f k).progressCounter)
    (j : Fin W) : (Function.update f k c j).progressCounter = (f j).progressCounter :=
  update_field f _ h j

@[simp] theorem Core.servicingThreads_update (h : c.servicingThreads = (f k).servicingThreads)
    (j : Fin W) : (Function.update f k c j).servicingThreads = (f j).servicingThreads :=
  update_field f _ h j

end Fields

section CountDispatch

variable (i : Fin W) (s : Sys W) (x : Item W)

/-- What `countDispatch` leaves of a core: all but the progress counter and
`last_worker`. -/
def Core.uncounted (c : Core W) : Core W := { c with progressCounter := 0, lastWorker := 0 }

theorem countDispatch_uncounted (j : Fin W) :
    ((countDispatch i s x).core j).uncounted = (s.core j).uncounted := by
  have hb : ∀ (t : Sys W) k, ((t.bumpProgress k).core j).uncounted = (t.core j).uncounted :=
    fun t k => update_field t.core Core.uncounted
      (c := { t.core k with progressCounter := (t.core k).progressCounter + 1 }) rfl j
  have hl : ∀ t : Sys W,
      ((t.setCore i { t.core i with lastWorker := i }).core j).uncounted = (t.core j).uncounted :=
    fun t => update_field t.core Core.uncounted (c := { t.core i with lastWorker := i }) rfl j
  unfold countDispatch
  dsimp only
  rw [hl]
  cases s.owningCore x <;> dsimp only <;> split_ifs <;> simp only [hb]

@[simp] theorem countDispatch_q (j : Fin W) : ((countDispatch i s x).core j).q = (s.core j).q := by
  have h := congrArg Core.q (countDispatch_uncounted i s x j)
  exact h

@[simp] theorem countDispatch_registry (j : Fin W) :
    ((countDispatch i s x).core j).registry = (s.core j).registry := by
  have h := congrArg Core.registry (countDispatch_uncounted i s x j)
  exact h

@[simp] theorem countDispatch_servicingThreads (j : Fin W) :
    ((countDispatch i s x).core j).servicingThreads = (s.core j).servicingThreads := by
  have h := congrArg Core.servicingThreads (countDispatch_uncounted i s x j)
  exact h

end CountDispatch

/-! ## What a move does to the rest of the system -/

section Frame

variable {cfg : Config W} {i : Fin W} {a : Answer} {s : Sys W} {w : Worker W} {s' : Sys W}
  {es : List (Event W)}

/-- A move writes no other thread's record. -/
theorem Move.worker_ne (hm : Move cfg i a s w s' es) {j : Fin W} (hj : j ≠ i) :
    s'.worker j = s.worker j := by
  cases hm <;> simp [Function.update_noteq hj]

/-- What a move does to the cown table and the registries: the stub collection
of the thread's core at the head of the loop (lines 173–179, `false`) or in
teardown phase 2 (line 319, `true`); the registration of `prerun` (lines
497–506); or nothing. -/
theorem Move.registry (hm : Move cfg i a s w s' es) :
    (¬(w.pc = .prerun ∧ ∃ c, w.cown = some (.cown c)) ∧ s'.cownOf = s.cownOf ∧
      ∀ k, (s'.core k).registry = (s.core k).registry) ∨
    (∃ t, (w.pc = .top ∧ t = false ∨ w.pc = .phase2 ∧ t = true) ∧ s'.cownOf = s.cownOf ∧
      ∀ k, (s'.core k).registry = (Function.update s.core i
        (collectCownStubs (stubEnv s.cownOf a.isOutdated t cfg.detectLeaks) w.state (s.core i))
          k).registry) ∨
    (∃ c, w.pc = .prerun ∧ w.cown = some (.cown c) ∧
      s'.cownOf = (register i s.cownOf (s.core i) c).1 ∧
      ∀ k, (s'.core k).registry = (Function.update s.core i (register i s.cownOf (s.core i) c).2
        k).registry) := by
  cases hm
  case collectStubs hpc _ => exact .inr (.inl ⟨false, .inl ⟨hpc, rfl⟩, rfl, fun _ => rfl⟩)
  case phase2 hpc => exact .inr (.inl ⟨true, .inr ⟨hpc, rfl⟩, rfl, fun _ => rfl⟩)
  case prerunCown c hpc hc => exact .inr (.inr ⟨c, hpc, hc, rfl, fun _ => rfl⟩)
  all_goals exact .inl ⟨by simp_all, by simp, fun _ => by simp⟩

/-- Only the thread's own `fetch_sub` writes `servicing_threads`. -/
theorem Move.servicingThreads (hm : Move cfg i a s w s' es) (hpc : w.pc ≠ .release) (k : Fin W) :
    (s'.core k).servicingThreads = (s.core k).servicingThreads := by
  cases hm <;> simp_all

end Frame

/-- What an environment action does to the cown table and to the cores apart
from their queues: a cown's last weak reference goes, on its core; or the
owners and weak counts stay as they are (a cown may mark itself or record its
epoch), and so do the cores. -/
theorem envStep_cores (e : EnvAction W) (s : Sys W) :
    ((∀ c, ((envStep e s).1.cownOf c).owningCore = (s.cownOf c).owningCore ∧
        ((envStep e s).1.cownOf c).weakCount = (s.cownOf c).weakCount) ∧
      ∀ k, ((envStep e s).1.core k).unqueued = (s.core k).unqueued) ∨
    (∃ c k, e = .releaseWeak c ∧ (s.cownOf c).owningCore = some k ∧
      (envStep e s).1.cownOf = (releaseWeak s.cownOf (s.core k) c).1 ∧
      ∀ j, ((envStep e s).1.core j).unqueued =
        (Function.update s.core k (releaseWeak s.cownOf (s.core k) c).2 j).unqueued) := by
  cases e with
  | releaseWeak c =>
    simp only [envStep]
    split
    next k hk => exact .inr ⟨c, k, rfl, hk, rfl, fun j => rfl⟩
    next => exact .inl ⟨fun _ => ⟨rfl, rfl⟩, fun _ => rfl⟩
  | setEpochMark c m | setEpochWhenPopped c m =>
    refine .inl ⟨fun c' => ?_, fun _ => rfl⟩
    simp only [envStep, Sys.setCownOf_cownOf, Function.update_apply]
    split <;> simp_all
  | scheduleFifo | scheduleLifo =>
    exact .inl ⟨fun _ => ⟨rfl, rfl⟩, fun _ => by simp [envStep, scheduleFifo, Sys.enqueueFront]⟩
  | stop | wantLd => exact .inl ⟨fun _ => ⟨rfl, rfl⟩, fun _ => rfl⟩

end Verona.Rt
