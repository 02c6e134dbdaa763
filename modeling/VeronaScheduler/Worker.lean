import VeronaScheduler.Registry

/- One scheduler thread, `SchedulerThread<T>`: its fields, and `run_inner` with
   `steal`, `fast_steal`, `prerun`, `ld_protocol` and `schedule_fifo` cut into
   atomic steps, from the head of its main loop to the end of its two-phase
   teardown (lines 303–337).

   Several threads run at once, and the run queues are shared: the atomic unit
   is one queue operation (`enqueue`, `enqueue_front`, `dequeue`), and each step
   below performs at most one of them together with the thread's own bookkeeping,
   which no other thread reads. A step starts at a program point `Pc` and ends at
   the next; values the thread holds between two queue operations live in its
   `cown` slot (the local `cown` of `run_inner`) or in the program point
   (`n` of line 262 and `stolen` of line 278, in `Pc.swap`).

   What a step needs from outside (`nothing_old()`, `no_inflight_messages()`,
   `next_state`, `should_scan()`, the result of `cown->run`, and
   `GlobalEpoch::is_outdated`) is an `Answer` the environment picks. Each step
   reports what it did as a list of `Event`s, from which the trace properties of
   the later files are read.

   Left out, as they change nothing modelled: logging, statistics, `yield()`,
   `unpause()` and the blocking of `pause()` (a paused thread simply takes no
   step), `core->scan()` and `core->try_collect()`, whose effects on other
   cowns are the environment's, and the allocator's `flush_local()` at the end
   of teardown phase 1. `GlobalEpoch::advance()` moves the epoch that the
   environment's `is_outdated` answers are read from; it writes no modelled
   field. -/
namespace Verona.Rt

variable {W : Nat}

/-- Where `ld_protocol` was called from: `steal` (line 388) or `run_inner` (line 230). -/
inductive LdCaller
  | steal
  | runInner
  deriving DecidableEq, Repr

/-- The program points of `run_inner` between two atomic steps. -/
inductive Pc (W : Nat)
  /-- The head of the main loop, line 171: the opportunistic stub collection. -/
  | top
  /-- Line 181: the fairness steal. -/
  | fairness
  /-- Line 190: pop the local queue if the slot is empty. -/
  | popLocal
  /-- Line 378: the test of `steal`'s `while (running)`. -/
  | steal
  /-- Line 541: the checkpoint test at the head of `ld_protocol`. -/
  | ldEntry (r : LdCaller)
  /-- Line 560: the next pass of `ld_protocol`'s loop. -/
  | ldLoop (r : LdCaller)
  /-- Line 391: `steal` looks at its own queue. -/
  | stealLocal
  /-- Line 397: `steal` tries the victim. -/
  | stealVictim
  /-- Line 208. -/
  | prerun
  /-- Line 224. -/
  | scanHint
  /-- Line 234. -/
  | dispatch
  /-- Line 248: `run` returned true. -/
  | reschedule
  /-- Lines 266 and 280: `n` was dequeued or stolen; the slot's cown goes back. -/
  | swap (n : Item W)
  /-- Line 271: the local queue was empty after `run`. -/
  | queueEmpty
  /-- Line 278: `fast_steal(stolen)` of a fair scheduler. -/
  | fairSteal
  /-- Past the main loop (line 204): teardown phase 1, `core->collect` (line 309). -/
  | exit
  /-- Line 313: `Scheduler::get().enter_barrier()`. -/
  | barrier
  /-- Lines 317–319: `GlobalEpoch::advance()` and `collect_cown_stubs<true>()`. -/
  | phase2
  /-- Line 325: `core->servicing_threads.fetch_sub(1)`. -/
  | release
  /-- Line 330: `core->q.destroy`. -/
  | destroy
  /-- Past line 331: the thread is done. -/
  | finished
  deriving DecidableEq, Repr

/-- Whether a thread is at `enter_barrier()` or past it. -/
def Pc.atBarrier {W : Nat} : Pc W → Bool
  | .barrier | .phase2 | .release | .destroy | .finished => true
  | _ => false

/-- Whether a thread has left the main loop. -/
def Pc.pastLoop {W : Nat} : Pc W → Bool
  | .exit | .barrier | .phase2 | .release | .destroy | .finished => true
  | _ => false

/-- The fields of `SchedulerThread<T>` that scheduling reads or writes, the local
`cown` of `run_inner`, and the program point. The thread's core is its index. -/
structure Worker (W : Nat) where
  victim : Fin W
  running : Bool
  nLdTokens : UInt8
  shouldStealForFairness : Bool
  scheduledUnscannedCown : Bool
  sendEpoch : EpochMark
  prevEpoch : EpochMark
  state : ThreadState
  cown : Option (Item W)
  pc : Pc W
  deriving DecidableEq, Repr

/-- All cores, all threads, and the cown fields the scheduler touches. -/
structure Sys (W : Nat) where
  core : Fin W → Core W
  worker : Fin W → Worker W
  cownOf : CownId → CownRec W

/-- What is fixed for a run: the ring (`Core::next`), `Scheduler::get().fair`, and
`Scheduler::get_detect_leaks()`. -/
structure Config (W : Nat) where
  next : Fin W → Fin W
  fair : Bool
  detectLeaks : Bool

/-- The environment's answers to one step's questions. -/
structure Answer where
  nothingOld : Bool
  noInflightMessages : Bool
  nextState : ThreadState
  shouldScan : Bool
  reschedule : Bool
  isOutdated : Nat → Bool

/-- What a step reports. -/
inductive Event (W : Nat)
  /-- A `dequeue` on core `k`'s queue returned `x`. -/
  | dequeue (k : Fin W) (x : Item W)
  /-- `enqueue(x)` on core `k`'s queue. -/
  | enqueue (k : Fin W) (x : Item W)
  /-- `enqueue_front(x)` on core `k`'s queue. -/
  | enqueueFront (k : Fin W) (x : Item W)
  /-- A steal attempt on victim `v`: `none` if skipped (`v` is the thread's own
  core), else what its `dequeue` returned. -/
  | stealAttempt (v : Fin W) (r : Option (Option (Item W)))
  /-- `schedule_fifo(x)` on this thread, and whether `x` was scanned in `send_epoch`. -/
  | scheduleFifo (x : Item W) (scanned : Bool)
  /-- The test of line 224 on the cown about to run. -/
  | scanCheck (x : Item W) (unscanned : Bool)
  /-- `cown->run` on `x`, and what it returned. -/
  | run (x : Item W) (reschedule : Bool)
  /-- A write of `send_epoch`. -/
  | sendEpoch (e : EpochMark)
  /-- `enter_scan`, and the thread's core queue at that moment. -/
  | enterScan (snapshot : List (Item W))
  /-- `collect_cown_stubs` got past its guard and drained the registry. -/
  | drain (state : ThreadState)
  /-- `collect_cowns`: `core->try_collect(send_epoch)`. -/
  | tryCollect (e : EpochMark)
  /-- The main loop broke (line 204). -/
  | leaveLoop
  /-- Teardown phase 1 released `x`, dequeued from the thread's core queue. -/
  | collected (x : Item W)
  /-- Teardown phase 1 ended (line 311). -/
  | phase1Done
  /-- `enter_barrier()` let the thread through (line 313). -/
  | passBarrier
  /-- Teardown phase 2 ended (line 321). -/
  | phase2Done
  /-- `fetch_sub(1)` on `servicing_threads` returned `v` (line 325). -/
  | fetchSub (v : Nat)
  /-- `core->q.destroy` (line 330). -/
  | destroyQueue
  deriving DecidableEq, Repr

namespace Worker

/-- `ld_state_change`. -/
def ldStateChange (w : Worker W) (s : ThreadState) : Worker W := { w with state := s }

/-- `ld_checkpoint_reached`. -/
def ldCheckpointReached (w : Worker W) : Bool := w.nLdTokens == 0

/-- `dec_n_ld_tokens`; its assertion is `decNLdTokensAsserts`. -/
def decNLdTokens (w : Worker W) : Worker W := { w with nLdTokens := w.nLdTokens - 1 }

/-- `assert(n_ld_tokens == 1 || n_ld_tokens == 2)` in `dec_n_ld_tokens`. -/
def decNLdTokensAsserts (w : Worker W) : Bool := w.nLdTokens == 1 || w.nLdTokens == 2

/-- `enter_prescan`. -/
def enterPrescan (w : Worker W) : Worker W × List (Event W) :=
  ({ w with prevEpoch := w.sendEpoch, sendEpoch := .epochNone }, [.sendEpoch .epochNone])

/-- `enter_scan`, with `q` the thread's core queue at that moment. -/
def enterScan (q : List (Item W)) (w : Worker W) : Worker W × List (Event W) :=
  let e := if w.prevEpoch = .epochB then EpochMark.epochA else .epochB
  ({ w with sendEpoch := e, nLdTokens := 2, scheduledUnscannedCown := false },
    [.sendEpoch e, .enterScan q])

/-- `want_ld`. -/
def wantLd (w : Worker W) : Worker W :=
  if w.state = .notInLD then w.ldStateChange .wantLD else w

end Worker

namespace Sys

/-- Thread `i` takes the record `w`. -/
def setWorker (s : Sys W) (i : Fin W) (w : Worker W) : Sys W :=
  { s with worker := Function.update s.worker i w }

/-- Core `k` takes the record `c`. -/
def setCore (s : Sys W) (k : Fin W) (c : Core W) : Sys W :=
  { s with core := Function.update s.core k c }

/-- The cown table becomes `f`. -/
def setCownOf (s : Sys W) (f : CownId → CownRec W) : Sys W := { s with cownOf := f }

/-- Core `k`'s queue becomes `q`. -/
def setQ (s : Sys W) (k : Fin W) (q : List (Item W)) : Sys W :=
  s.setCore k { s.core k with q }

/-- `q.enqueue(x)` on core `k`. -/
def enqueue (s : Sys W) (k : Fin W) (x : Item W) : Sys W := s.setQ k ((s.core k).q ++ [x])

/-- `q.enqueue_front(x)` on core `k`. -/
def enqueueFront (s : Sys W) (k : Fin W) (x : Item W) : Sys W := s.setQ k (x :: (s.core k).q)

/-- `owning_core()` of a queued value; for a token, its core
(`clear_thread_bit(cown)->owning_core()`). -/
def owningCore (s : Sys W) : Item W → Option (Fin W)
  | .cown c => (s.cownOf c).owningCore
  | .token k => some k

/-- Modelled from the spec: `a->scanned(e)`, whether the cown's epoch mark is `e`
(§3: `epoch_mark` is read to decide whether the cown is scanned in the current
send-epoch). A token is never scheduled or run, and counts as scanned. -/
def scanned (s : Sys W) : Item W → EpochMark → Bool
  | .cown c, e => (s.cownOf c).epochMark == e
  | .token _, _ => true

/-- One more cown dispatched on core `k` (`progress_counter++`). -/
def bumpProgress (s : Sys W) (k : Fin W) : Sys W :=
  s.setCore k { s.core k with progressCounter := (s.core k).progressCounter + 1 }

end Sys

section Steps

variable (cfg : Config W) (i : Fin W) (a : Answer)

/-- `fast_steal`: one dequeue from `victim` unless it is the thread's own core; on
failure `victim` moves to `victim->next`. -/
def fastSteal (s : Sys W) : Option (Item W) × Sys W × List (Event W) :=
  let w := s.worker i
  if w.victim ≠ i then
    match (s.core w.victim).q with
    | x :: rest =>
      (some x, s.setQ w.victim rest, [.stealAttempt w.victim (some (some x)), .dequeue w.victim x])
    | [] => (none, s.setWorker i { w with victim := cfg.next w.victim },
        [.stealAttempt w.victim (some none)])
  else (none, s.setWorker i { w with victim := cfg.next w.victim }, [.stealAttempt w.victim none])

/-- `schedule_fifo(x)` on thread `i` (lines 109–125): an unscanned cown sets
`scheduled_unscanned_cown`; `x` goes to the tail of the thread's core queue. -/
def scheduleFifo (x : Item W) (s : Sys W) : Sys W × List (Event W) :=
  let w := s.worker i
  let sc := s.scanned x w.sendEpoch
  ((s.setWorker i { w with scheduledUnscannedCown := w.scheduledUnscannedCown || !sc }).enqueue i x,
    [.scheduleFifo x sc, .enqueue i x])

/-- Lines 173–179: stub collection when the registry is sparse
(`total_cowns < free_cowns << 1`). -/
def topStep (s : Sys W) : Sys W × List (Event W) :=
  let w := s.worker i
  let c := s.core i
  if c.totalCowns < wrapShl c.freeCowns then
    ((s.setCore i (collectCownStubs (stubEnv s.cownOf a.isOutdated false cfg.detectLeaks) w.state c)).setWorker
        i { w with pc := .fairness },
      if stubsGuarded w.state then [] else [.drain w.state])
  else (s.setWorker i { w with pc := .fairness }, [])

/-- Lines 181–188: a thread owing a fairness steal, with an empty slot, clears the
flag and makes one `fast_steal`. -/
def fairnessStep (s : Sys W) : Sys W × List (Event W) :=
  let w := s.worker i
  if w.shouldStealForFairness = true ∧ w.cown = none then
    let r := fastSteal cfg i (s.setWorker i { w with shouldStealForFairness := false })
    (r.2.1.setWorker i { r.2.1.worker i with cown := r.1, pc := .popLocal }, r.2.2)
  else (s.setWorker i { w with pc := .popLocal }, [])

/-- Lines 190–200: pop the local queue if the slot is empty; failing that, steal. -/
def popLocalStep (s : Sys W) : Sys W × List (Event W) :=
  let w := s.worker i
  match w.cown with
  | some _ => (s.setWorker i { w with pc := .prerun }, [])
  | none =>
    match (s.core i).q with
    | x :: rest => ((s.setQ i rest).setWorker i { w with cown := some x, pc := .prerun }, [.dequeue i x])
    | [] => (s.setWorker i { w with pc := .steal }, [])

/-- Lines 378–388: the loop test of `steal`; a queue with nothing old resets
`n_ld_tokens`. With `running` false, `steal` returns null and the main loop
breaks (line 203). -/
def stealStep (s : Sys W) : Sys W × List (Event W) :=
  let w := s.worker i
  if w.running then
    let w := if a.nothingOld then { w with nLdTokens := 0 } else w
    (s.setWorker i { w with pc := .ldEntry .steal }, [])
  else (s.setWorker i { w with pc := .exit }, [.leaveLoop])

/-- Lines 540–554: the checkpoint test at the head of `ld_protocol`. -/
def ldEntryStep (r : LdCaller) (s : Sys W) : Sys W × List (Event W) :=
  let w := s.worker i
  if w.state = .allInScan ∧ w.ldCheckpointReached = true then
    if w.scheduledUnscannedCown = false ∧ a.noInflightMessages = true then
      (s.setWorker i { w.ldStateChange .believeDoneVote with pc := .ldLoop r }, [])
    else
      let e := w.enterScan (s.core i).q
      (s.setWorker i { e.1 with pc := .ldLoop r }, e.2)
  else (s.setWorker i { w with pc := .ldLoop r }, [])

/-- Where `ld_protocol` returns to: line 391 of `steal`, or line 234 of `run_inner`. -/
def LdCaller.resume : LdCaller → Pc W
  | .steal => .stealLocal
  | .runInner => .dispatch

/-- One pass of `ld_protocol`'s loop (lines 558–639), `next_state` answering. -/
def ldLoopStep (r : LdCaller) (s : Sys W) : Sys W × List (Event W) :=
  let w := s.worker i
  let sprev := w.state
  let snext := a.nextState
  if snext = sprev then (s.setWorker i { w with pc := LdCaller.resume r }, [])
  else
    let w := w.ldStateChange snext
    match snext with
    | .preScan =>
      let e := w.enterPrescan
      (s.setWorker i { e.1 with pc := LdCaller.resume r }, e.2)
    | .scan =>
      let e₁ := if sprev ≠ .preScan then w.enterPrescan else (w, [])
      let e₂ := e₁.1.enterScan (s.core i).q
      (s.setWorker i { e₂.1 with pc := LdCaller.resume r }, e₁.2 ++ e₂.2)
    | .allInScan =>
      if sprev = .preScan then
        let e := w.enterScan (s.core i).q
        (s.setWorker i { e.1 with pc := LdCaller.resume r }, e.2)
      else (s.setWorker i { w with pc := LdCaller.resume r }, [])
    | .believeDone =>
      let w := if w.scheduledUnscannedCown then w.ldStateChange .believeDoneRetract
        else w.ldStateChange .believeDoneConfirm
      (s.setWorker i { w with pc := .ldLoop r }, [])
    | .sweep => (s.setWorker i { w with pc := .ldLoop r }, [.tryCollect w.sendEpoch])
    | _ => (s.setWorker i { w with pc := .ldLoop r }, [])

/-- Lines 390–394: `steal` finds work another thread pushed onto its own queue. -/
def stealLocalStep (s : Sys W) : Sys W × List (Event W) :=
  let w := s.worker i
  match (s.core i).q with
  | x :: rest => ((s.setQ i rest).setWorker i { w with cown := some x, pc := .prerun }, [.dequeue i x])
  | [] => (s.setWorker i { w with pc := .stealVictim }, [])

/-- Lines 396–438: one attempt on `victim`; the code is `fast_steal`'s, with a
statistics counter. After a failure, the back-off (a spin, or `pause()` in
`NotInLD`) ends at the loop test again. -/
def stealVictimStep (s : Sys W) : Sys W × List (Event W) :=
  let r := fastSteal cfg i s
  match r.1 with
  | some x => (r.2.1.setWorker i { r.2.1.worker i with cown := some x, pc := .prerun }, r.2.2)
  | none => (r.2.1.setWorker i { r.2.1.worker i with pc := .steal }, r.2.2)

/-- `prerun` and the `continue` after it (lines 208–212, 462–509): a token goes back
to its core's queue, and the sighting of this core's own token is counted; a
cown is registered on this core if it has none. -/
def prerunStep (s : Sys W) : Sys W × List (Event W) :=
  let w := s.worker i
  match w.cown with
  | some (.token k) =>
    let w :=
      if k = i then
        let w := if cfg.fair then { w with shouldStealForFairness := true } else w
        if 0 < w.nLdTokens then w.decNLdTokens else w
      else w
    ((s.enqueue k (.token k)).setWorker i { w with cown := none, pc := .top }, [.enqueue k (.token k)])
  | some (.cown c) =>
    let h := register i s.cownOf (s.core i) c
    (((s.setCore i h.2).setCownOf h.1).setWorker i { w with pc := .scanHint }, [])
  | none => (s.setWorker i { w with pc := .top }, [])

/-- Lines 224–228: a cown whose mark is not `send_epoch` while a scan is on. -/
def scanHintStep (s : Sys W) : Sys W × List (Event W) :=
  let w := s.worker i
  match w.cown with
  | some x =>
    let unscanned := a.shouldScan && !s.scanned x w.sendEpoch
    (s.setWorker i { w with
        scheduledUnscannedCown := w.scheduledUnscannedCown || unscanned
        pc := .ldEntry .runInner }, [.scanCheck x unscanned])
  | none => (s.setWorker i { w with pc := .ldEntry .runInner }, [])

/-- Lines 234–244: the progress counters of the cown's core and of this one, and
`last_worker`. -/
def countDispatch (s : Sys W) (x : Item W) : Sys W :=
  let s := match s.owningCore x with
    | some k => s.bumpProgress k
    | none => s
  let s := if s.owningCore x ≠ some i then s.bumpProgress i else s
  s.setCore i { s.core i with lastWorker := i }

/-- Lines 234–246 and 294–298: the progress counters, then `cown->run`. -/
def dispatchStep (s : Sys W) : Sys W × List (Event W) :=
  let w := s.worker i
  match w.cown with
  | some x =>
    let s := countDispatch i s x
    if a.reschedule then (s.setWorker i { w with pc := .reschedule }, [.run x true])
    else (s.setWorker i { w with cown := none, pc := .top }, [.run x false])
  | none => (s.setWorker i { w with pc := .top }, [])

/-- Lines 248–262: `run` returned true. A thread owing a fairness steal requeues
its cown; else it pops one more cown to swap with. -/
def rescheduleStep (s : Sys W) : Sys W × List (Event W) :=
  let w := s.worker i
  if w.shouldStealForFairness then
    match w.cown with
    | some x =>
      let r := scheduleFifo i x s
      (r.1.setWorker i { r.1.worker i with cown := none, pc := .top }, r.2)
    | none => (s.setWorker i { w with pc := .top }, [])
  else
    match (s.core i).q with
    | n :: rest => ((s.setQ i rest).setWorker i { w with pc := .swap n }, [.dequeue i n])
    | [] => (s.setWorker i { w with pc := .queueEmpty }, [])

/-- Lines 266–267 and 280–281: `schedule_fifo(cown); cown = n;`. -/
def swapStep (n : Item W) (s : Sys W) : Sys W × List (Event W) :=
  match (s.worker i).cown with
  | some x =>
    let r := scheduleFifo i x s
    (r.1.setWorker i { r.1.worker i with cown := some n, pc := .top }, r.2)
  | none => (s.setWorker i { s.worker i with cown := some n, pc := .top }, [])

/-- Lines 271–276: the queue was empty after `run`; with nothing old in it, the
token is as good as seen (`n_ld_tokens = 0`) and a fair scheduler steals. -/
def queueEmptyStep (s : Sys W) : Sys W × List (Event W) :=
  let w := s.worker i
  if a.nothingOld then
    (s.setWorker i { w with nLdTokens := 0, pc := if cfg.fair then .fairSteal else .top }, [])
  else (s.setWorker i { w with pc := .top }, [])

/-- Line 278: `fast_steal(stolen)`; a stolen value is swapped in. -/
def fairStealStep (s : Sys W) : Sys W × List (Event W) :=
  let r := fastSteal cfg i s
  match r.1 with
  | some x => (r.2.1.setWorker i { r.2.1.worker i with pc := .swap x }, r.2.2)
  | none => (r.2.1.setWorker i { r.2.1.worker i with pc := .top }, r.2.2)

/-- Modelled from the spec: teardown phase 1, `core->collect` (line 309;
`core.h` is not under src/). §5 says phase 1 drains the queues: each step
dequeues one value from the thread's core queue and releases it, and with the
queue empty the phase ends. -/
def collectStep (s : Sys W) : Sys W × List (Event W) :=
  match (s.core i).q with
  | x :: rest => (s.setQ i rest, [.dequeue i x, .collected x])
  | [] => (s.setWorker i { s.worker i with pc := .barrier }, [.phase1Done])

/-- Line 313: `enter_barrier()` releases no thread before every thread has
reached it; until then the thread waits. -/
def barrierStep (s : Sys W) : Sys W × List (Event W) :=
  if ∀ j, (s.worker j).pc.atBarrier = true then
    (s.setWorker i { s.worker i with pc := .phase2 }, [.passBarrier])
  else (s, [])

/-- Lines 317–321: `GlobalEpoch::advance()`, then `collect_cown_stubs<true>()`,
which frees a cown whatever its weak count unless leaks are detected. -/
def phase2Step (s : Sys W) : Sys W × List (Event W) :=
  let w := s.worker i
  ((s.setCore i (collectCownStubs (stubEnv s.cownOf a.isOutdated true cfg.detectLeaks) w.state
      (s.core i))).setWorker i { w with pc := .release },
    (if stubsGuarded w.state then [] else [.drain w.state]) ++ [.phase2Done])

/-- Lines 323–331: `fetch_sub(1)` on `servicing_threads`; the thread that reads
`1` goes on to destroy the queue. -/
def releaseStep (s : Sys W) : Sys W × List (Event W) :=
  let v := (s.core i).servicingThreads
  ((s.setCore i { s.core i with servicingThreads := wrapSub v 1 }).setWorker i
      { s.worker i with pc := if v = 1 then .destroy else .finished }, [.fetchSub v])

/-- Line 330: `core->q.destroy`. -/
def destroyStep (s : Sys W) : Sys W × List (Event W) :=
  (s.setWorker i { s.worker i with pc := .finished }, [.destroyQueue])

/-- One atomic step of thread `i`, from its program point. -/
def workerStep (s : Sys W) : Sys W × List (Event W) :=
  match (s.worker i).pc with
  | .top => topStep cfg i a s
  | .fairness => fairnessStep cfg i s
  | .popLocal => popLocalStep i s
  | .steal => stealStep i a s
  | .ldEntry r => ldEntryStep i a r s
  | .ldLoop r => ldLoopStep i a r s
  | .stealLocal => stealLocalStep i s
  | .stealVictim => stealVictimStep cfg i s
  | .prerun => prerunStep cfg i s
  | .scanHint => scanHintStep i a s
  | .dispatch => dispatchStep i a s
  | .reschedule => rescheduleStep i s
  | .swap n => swapStep i n s
  | .queueEmpty => queueEmptyStep cfg i a s
  | .fairSteal => fairStealStep cfg i s
  | .exit => collectStep i s
  | .barrier => barrierStep i s
  | .phase2 => phase2Step cfg i a s
  | .release => releaseStep i s
  | .destroy => destroyStep i s
  | .finished => (s, [])

end Steps

end Verona.Rt
