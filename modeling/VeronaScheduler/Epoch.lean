import VeronaScheduler.Token

/- The send-epoch of a thread: `enter_prescan` and `enter_scan` (lines
   654–680), and the leak-detector moves of `ld_protocol` that call them.

   Only these two functions write `send_epoch`, each write is reported as an
   `Event.sendEpoch`, and `collect_cowns` reports the epoch it passes to
   `try_collect`. Assuming that `next_state` takes a thread in `PreScan` only to
   `Scan` or `AllInScan` (`PreScanExits`), every reachable record satisfies
   `EpochInv`: `send_epoch` and `prev_epoch` are `EPOCH_A` and `EPOCH_B` in some
   order, or the thread is in `PreScan` with `send_epoch = EPOCH_NONE` and
   `prev_epoch` one of the two. From it (`epoch_cycle`):

   * the values a thread writes to `send_epoch`, read from the start value
     `EPOCH_A`, each repeat the current value or move one place along
     `EPOCH_A → EPOCH_NONE → EPOCH_B → EPOCH_NONE → EPOCH_A` (`cycleWalk`);
   * the checkpoint test at the head of `ld_protocol`, and so the re-scan of
     line 552, leaves `send_epoch` as it was;
   * `try_collect` is never passed `EPOCH_NONE`. -/
namespace Verona.Rt

variable {W : Nat}

/-- What an event wrote to `send_epoch`, if it wrote it. -/
def Event.sentEpoch : Event W → Option EpochMark
  | .sendEpoch e => some e
  | _ => none

/-- The cycle of `send_epoch`, by position: `EPOCH_A`, `EPOCH_NONE`, `EPOCH_B`,
`EPOCH_NONE`. -/
def epochCycle (p : Fin 4) : EpochMark :=
  match p.val with
  | 0 => .epochA
  | 2 => .epochB
  | _ => .epochNone

/-- Read the writes `es` along the cycle from position `p`: each write either
repeats the value at the current position or is the value at the next one;
`none` as soon as one is neither. -/
def cycleWalk : Fin 4 → List EpochMark → Option (Fin 4)
  | p, [] => some p
  | p, e :: es =>
    if e = epochCycle p then cycleWalk p es
    else if e = epochCycle (p + 1) then cycleWalk (p + 1) es
    else none

theorem cycleWalk_append : ∀ (p : Fin 4) (es fs : List EpochMark),
    cycleWalk p (es ++ fs) = (cycleWalk p es).bind (cycleWalk · fs)
  | _, [], _ => rfl
  | p, e :: es, fs => by
    simp only [List.cons_append, cycleWalk]
    split_ifs <;> simp [cycleWalk_append]

/-- Where a thread's `send_epoch` stands in the cycle; an `EPOCH_NONE` stands
after the value `enter_prescan` saved in `prev_epoch`. -/
def Worker.epochPos (w : Worker W) : Fin 4 :=
  match w.sendEpoch, w.prevEpoch with
  | .epochA, _ => 0
  | .epochNone, .epochA => 1
  | .epochB, _ => 2
  | .epochNone, _ => 3

/-- The epoch invariant: `send_epoch` and `prev_epoch` are the two scan epochs,
or the thread is in `PreScan` between `enter_prescan` and `enter_scan`. -/
def EpochInv (w : Worker W) : Prop :=
  (w.sendEpoch = .epochA ∧ w.prevEpoch = .epochB) ∨
  (w.sendEpoch = .epochB ∧ w.prevEpoch = .epochA) ∨
  (w.state = .preScan ∧ w.sendEpoch = .epochNone ∧
    (w.prevEpoch = .epochA ∨ w.prevEpoch = .epochB))

/-- `next_state` takes a thread in `PreScan` only to `Scan` or `AllInScan`, or
leaves it there. -/
def PreScanExit (w : Worker W) (a : Answer) : Prop :=
  w.state = .preScan → a.nextState = .preScan ∨ a.nextState = .scan ∨ a.nextState = .allInScan

/-- The environment assumption of the epoch cycle: `PreScanExit` at every step
of every thread. -/
def PreScanExits : Trace W → Sys W → Label W → Prop
  | _, s, .worker i a => PreScanExit (s.worker i) a
  | _, _, .env _ => True

/-! ## One step -/

section Move

variable {cfg : Config W} {i : Fin W} {a : Answer} {s : Sys W} {w : Worker W} {s' : Sys W}
  {es : List (Event W)}

/-- Away from `ld_protocol` a move keeps the epochs and the state, and writes
neither `send_epoch` nor calls `try_collect`. -/
theorem Move.epochs_of_not_ld (hm : Move cfg i a s w s' es) (h₁ : ∀ r, w.pc ≠ .ldEntry r)
    (h₂ : ∀ r, w.pc ≠ .ldLoop r) :
    (s'.worker i).sendEpoch = w.sendEpoch ∧ (s'.worker i).prevEpoch = w.prevEpoch ∧
    (s'.worker i).state = w.state ∧ es.filterMap Event.sentEpoch = [] ∧
    ∀ e, .tryCollect e ∉ es := by
  cases hm
  all_goals first
    | exact absurd ‹w.pc = .ldEntry _› (h₁ _)
    | exact absurd ‹w.pc = .ldLoop _› (h₂ _)
    | simp_all [Event.sentEpoch]

/-- The checkpoint test at the head of `ld_protocol` (lines 541–554) keeps
`send_epoch`: the re-scan writes back the value already there. -/
theorem Move.ldEntry_epoch (hm : Move cfg i a s w s' es) {r : LdCaller} (hpc : w.pc = .ldEntry r)
    (h : EpochInv w) :
    EpochInv (s'.worker i) ∧ (s'.worker i).sendEpoch = w.sendEpoch ∧
    cycleWalk w.epochPos (es.filterMap Event.sentEpoch) = some (s'.worker i).epochPos ∧
    ∀ e, .tryCollect e ∉ es := by
  cases hm
  case checkpointVote | checkpointRescan | checkpointPass =>
    rcases h with ⟨h₁, h₂⟩ | ⟨h₁, h₂⟩ | ⟨h₀, h₁, h₂ | h₂⟩ <;> simp_all [EpochInv,
      Worker.epochPos, Worker.enterScan, Worker.ldStateChange, Event.sentEpoch, cycleWalk, epochCycle]
  all_goals simp_all

/-- One pass of `ld_protocol`'s loop (lines 558–639) keeps `EpochInv`, moves
along the cycle, and passes `try_collect` a scan epoch. -/
theorem Move.ldLoop_epoch (hm : Move cfg i a s w s' es) {r : LdCaller} (hpc : w.pc = .ldLoop r)
    (h : EpochInv w) (hadm : PreScanExit w a) :
    EpochInv (s'.worker i) ∧
    cycleWalk w.epochPos (es.filterMap Event.sentEpoch) = some (s'.worker i).epochPos ∧
    ∀ e, .tryCollect e ∈ es → e ≠ .epochNone := by
  cases hm
  case ldReturn | ldPreScan | ldScan | ldScanAfterPreScan | ldAllInScanAfterPreScan | ldAllInScan
    | ldRetract | ldConfirm | ldSweep | ldOther =>
    rcases h with ⟨h₁, h₂⟩ | ⟨h₁, h₂⟩ | ⟨h₀, h₁, h₂ | h₂⟩ <;> simp_all [EpochInv, PreScanExit,
      Worker.epochPos, Worker.enterScan, Worker.enterPrescan, Worker.ldStateChange,
      Event.sentEpoch, cycleWalk, epochCycle]
  all_goals simp_all

end Move

/-! ## Every run -/

/-- The epoch facts of a thread, over its record and its own events so far. -/
def EpochTrace (es : List (Event W)) (w : Worker W) : Prop :=
  EpochInv w ∧ cycleWalk 0 (es.filterMap Event.sentEpoch) = some w.epochPos ∧
    ∀ e, .tryCollect e ∈ es → e ≠ .epochNone

theorem epochTrace_step (cfg : Config W) (i : Fin W) (a : Answer) (s : Sys W)
    {es : List (Event W)} (h : EpochTrace es (s.worker i)) (hadm : PreScanExit (s.worker i) a) :
    EpochTrace (es ++ (workerStep cfg i a s).2) ((workerStep cfg i a s).1.worker i) := by
  obtain ⟨hinv, hwalk, htc⟩ := h
  have hm := workerStep_move cfg i a s
  have key : EpochInv ((workerStep cfg i a s).1.worker i) ∧
      cycleWalk (s.worker i).epochPos ((workerStep cfg i a s).2.filterMap Event.sentEpoch) =
        some ((workerStep cfg i a s).1.worker i).epochPos ∧
      ∀ e, .tryCollect e ∈ (workerStep cfg i a s).2 → e ≠ .epochNone := by
    by_cases h₁ : ∃ r, (s.worker i).pc = .ldEntry r
    · obtain ⟨r, hr⟩ := h₁
      obtain ⟨h₁, -, h₂, h₃⟩ := hm.ldEntry_epoch hr hinv
      exact ⟨h₁, h₂, fun e he => absurd he (h₃ e)⟩
    by_cases h₂ : ∃ r, (s.worker i).pc = .ldLoop r
    · obtain ⟨r, hr⟩ := h₂
      exact hm.ldLoop_epoch hr hinv hadm
    push_neg at h₁ h₂
    obtain ⟨hs, hp, hst, hw, htc'⟩ := hm.epochs_of_not_ld h₁ h₂
    refine ⟨by unfold EpochInv; rw [hs, hp, hst]; exact hinv, ?_, fun e he => absurd he (htc' e)⟩
    rw [hw]; unfold Worker.epochPos; rw [hs, hp]; rfl
  refine ⟨key.1, ?_, fun e he => ?_⟩
  · rw [List.filterMap_append, cycleWalk_append, hwalk]; exact key.2.1
  · rcases List.mem_append.1 he with he | he
    exacts [htc e he, key.2.2 e he]

theorem epochInv_wantLd {w : Worker W} (h : EpochInv w) : EpochInv w.wantLd := by
  rw [Worker.wantLd_eq]
  rcases h with h | h | ⟨h₀, h⟩
  · exact .inl h
  · exact .inr (.inl h)
  · exact .inr (.inr ⟨by simp [h₀], h⟩)

theorem epochTrace_reachable {cfg : Config W} {s₀ : Sys W} {tr : Trace W} {s : Sys W}
    (hr : Reach cfg PreScanExits s₀ tr s) (i : Fin W) :
    EpochTrace (threadEvents i tr) (s.worker i) :=
  reach_thread (fun _ es w => EpochTrace es w) (fun _ => ⟨.inl ⟨rfl, rfl⟩, rfl, by simp⟩)
    (fun i a _ ha ih => epochTrace_step cfg i a _ (ih i) ha)
    (fun _ es w ⟨h₁, h₂, h₃⟩ => ⟨⟨h₁, h₂, h₃⟩,
      ⟨epochInv_wantLd h₁, by rw [Worker.wantLd_eq]; exact h₂, h₃⟩,
      fun _ => ⟨h₁, by simpa [cycleWalk_append, Event.sentEpoch] using h₂, by simpa using h₃⟩,
      fun _ _ => ⟨h₁, by simpa [cycleWalk_append, Event.sentEpoch] using h₂, by simpa using h₃⟩⟩)
    hr i

/-- The epoch cycle (lines 538–680), assuming `next_state` takes a thread in
`PreScan` only to `Scan` or `AllInScan`: every reachable record satisfies
`EpochInv`; the values each thread has written to `send_epoch`, from the start
value `EPOCH_A`, follow `EPOCH_A → EPOCH_NONE → EPOCH_B → EPOCH_NONE → EPOCH_A`
up to the thread's current value; the checkpoint test and its re-scan keep
`send_epoch`; and no `try_collect` was passed `EPOCH_NONE`. -/
theorem epoch_cycle {cfg : Config W} {s₀ : Sys W} {tr : Trace W} {s : Sys W}
    (hr : Reach cfg PreScanExits s₀ tr s) :
    (∀ i, EpochInv (s.worker i)) ∧
    (∀ i, cycleWalk 0 ((threadEvents i tr).filterMap Event.sentEpoch) =
      some (s.worker i).epochPos) ∧
    (∀ i a r, (s.worker i).pc = .ldEntry r →
      ((workerStep cfg i a s).1.worker i).sendEpoch = (s.worker i).sendEpoch) ∧
    (∀ i e, (i, .tryCollect e) ∈ tr → e ≠ .epochNone) :=
  ⟨fun i => (epochTrace_reachable hr i).1, fun i => (epochTrace_reachable hr i).2.1,
    fun i a _ hpc => ((workerStep_move cfg i a s).ldEntry_epoch hpc (epochTrace_reachable hr i).1).2.1,
    fun i e he => (epochTrace_reachable hr i).2.2 e (mem_threadEvents.2 he)⟩

/-- One core whose queue holds cowns `5` and `6`. -/
def epochStart : Sys 1 where
  core _ := ⟨[.cown 5, .cown 6], [], 0, 0, 0, 0, 1⟩
  worker := initWorker (Config.ring 0 false false)
  cownOf _ := ⟨none, .epochA, 1, none⟩

theorem epochStart_init : Init (Config.ring 0 false false) epochStart where
  worker _ := rfl
  nodup := by decide
  tokenHome _ _ h := by simp [epochStart] at h
  serviced _ := rfl

/-- A round of the leak detector: the thread pops cown `5` and is moved to
`PreScan`, pops cown `6` and is moved to `Scan`, finds its queue empty and
steals nothing; in `ld_protocol` from `steal` it is moved to `Sweep`
(`collect_cowns`). -/
def epochRun : Trace 1 × Sys 1 :=
  runSteps (Config.ring 0 false false) [(0, answering .sweep)]
    (runSteps (Config.ring 0 false false)
      (List.replicate 7 (0, answering .preScan) ++ List.replicate 14 (0, answering .scan))
      ([], epochStart))

/-- Then `next_state` answers `Scan`: `enter_prescan` and `enter_scan` once more,
back to `EPOCH_A`; the thread finds nothing to steal and is back at the head of
`ld_protocol`. -/
def epochRun' : Trace 1 × Sys 1 :=
  runSteps (Config.ring 0 false false) (List.replicate 4 (0, answering .scan)) epochRun

theorem epochRun'_reach :
    Reach (Config.ring 0 false false) PreScanExits epochStart epochRun'.1 epochRun'.2 :=
  have hs : ∀ (ns : ThreadState) (n : Nat), (ns = .preScan ∨ ns = .scan) →
      ∀ p ∈ List.replicate n ((0 : Fin 1), answering ns), ∀ (tr : Trace 1) s,
        PreScanExits tr s (.worker p.1 p.2) := fun ns n h p hp _ _ => by
    rw [List.eq_of_mem_replicate hp]
    rcases h with rfl | rfl <;> simp [PreScanExits, PreScanExit, answering]
  reach_runSteps _ (hs _ 4 (.inr rfl))
    (.step (.worker 0 (answering .sweep))
      (reach_runSteps _ (fun p hp => (List.mem_append.mp hp).elim (hs _ 7 (.inl rfl) p)
        (hs _ 14 (.inr rfl) p)) (.init epochStart_init))
      trivial fun h => absurd h (by decide))

/-- After the round the thread is at the head of `ld_protocol`; it has written
`send_epoch` along the whole cycle `EPOCH_A → EPOCH_NONE → EPOCH_B → EPOCH_NONE
→ EPOCH_A`, and `collect_cowns` passed `EPOCH_B`. -/
theorem epoch_cycle_on_round :
    let cfg := Config.ring 0 false false
    let tr := epochRun'.1
    let s := epochRun'.2
    Reach cfg PreScanExits epochStart tr s ∧
    ((s.worker 0).pc = .ldEntry .steal ∧
      (threadEvents 0 tr).filterMap Event.sentEpoch = [.epochNone, .epochB, .epochNone, .epochA] ∧
      (0, .tryCollect .epochB) ∈ tr) ∧
    (∀ i, EpochInv (s.worker i)) ∧
    (∀ i, cycleWalk 0 ((threadEvents i tr).filterMap Event.sentEpoch) =
      some (s.worker i).epochPos) ∧
    (∀ i a r, (s.worker i).pc = .ldEntry r →
      ((workerStep cfg i a s).1.worker i).sendEpoch = (s.worker i).sendEpoch) ∧
    (∀ i e, (i, .tryCollect e) ∈ tr → e ≠ .epochNone) :=
  ⟨epochRun'_reach, by decide, epoch_cycle epochRun'_reach⟩

end Verona.Rt
