import VeronaScheduler.Frame

/- What a sighting of a thread's own token sets: `should_steal_for_fairness`
   and `n_ld_tokens`.

   The flag rises only in `prerun`, on the thread's own token under `fair`
   (`flag_rises_only_at_prerun`), and `prerun` then empties the slot and goes
   back to the head of the loop. So a thread owing a fairness steal is at the
   head of its loop with an empty slot (`FlagInv`), the test of line 181
   always finds the slot empty, and the flag is down at `cown->run` and in the
   reschedule policy (`fairness_steal_first`).

   `n_ld_tokens` is set to 0 (lines 275, 384) or 2 (`enter_scan`) and lowered
   only by `dec_n_ld_tokens` (`Move.nLdTokens`); so it stays in 0..2 and
   the assertion of `dec_n_ld_tokens` holds whenever `prerun` calls it
   (`ld_tokens_bounded`). -/
namespace Verona.Rt

variable {W : Nat}

section Move

variable {cfg : Config W} {i : Fin W} {a : Answer} {s : Sys W} {w : Worker W} {s' : Sys W}
  {es : List (Event W)}

/-- The flag after a move: set by the thread's own token under `fair`, cleared
by the fairness steal, else kept. -/
theorem Move.flag (hm : Move cfg i a s w s' es) :
    (s'.worker i).shouldStealForFairness =
      decide (w.pc = .prerun ∧ w.cown = some (.token i) ∧ cfg.fair = true ∨
        w.shouldStealForFairness = true ∧ ¬(w.pc = .fairness ∧ w.cown = none)) := by
  cases hm <;> simp_all [Worker.ldStateChange, Worker.enterScan, Worker.enterPrescan, Bool.or_comm]

/-- `n_ld_tokens` after a move: kept, set to 0 or 2, or lowered by one in
`prerun` on the thread's own token. -/
theorem Move.nLdTokens (hm : Move cfg i a s w s' es) :
    (s'.worker i).nLdTokens = w.nLdTokens ∨ (s'.worker i).nLdTokens = 0 ∨
    (s'.worker i).nLdTokens = 2 ∨
    (w.pc = .prerun ∧ w.cown = some (.token i) ∧ 0 < w.nLdTokens ∧
      (s'.worker i).nLdTokens = w.nLdTokens - 1) := by
  cases hm
  case prerunOwnToken hpc hc => by_cases hn : 0 < w.nLdTokens <;> simp [hpc, hc, hn]
  all_goals simp [Worker.ldStateChange, Worker.enterScan, Worker.enterPrescan]

/-- The head of the loop touches only the program point of its thread. -/
theorem Move.top (hm : Move cfg i a s w s' es) (h : w.pc = .top) :
    s'.worker i = { w with pc := .fairness } := by
  cases hm <;> simp_all

/-- `prerun` on a token empties the slot and goes back to the head of the loop. -/
theorem Move.prerun_token (hm : Move cfg i a s w s' es) {k : Fin W} (h : w.pc = .prerun)
    (hc : w.cown = some (.token k)) : (s'.worker i).cown = none ∧ (s'.worker i).pc = .top := by
  cases hm <;> simp_all

/-- The fairness steal with the flag up and the slot empty: the flag goes down
and the step is one `fast_steal`, on `victim`. -/
theorem Move.fairness_owed (hm : Move cfg i a s w s' es) (h : w.pc = .fairness)
    (hf : w.shouldStealForFairness = true) (hc : w.cown = none) :
    (s'.worker i).shouldStealForFairness = false ∧ (s'.worker i).pc = .popLocal ∧
      ∃ o, es = .stealAttempt w.victim o :: (o.join.map (.dequeue w.victim)).toList := by
  cases hm
  case fairnessSteal x _ _ _ _ _ _ => exact ⟨by simp, by simp, some (some x), rfl⟩
  case fairnessEmpty => exact ⟨by simp, by simp, some none, rfl⟩
  case fairnessSelf => exact ⟨by simp, by simp, none, rfl⟩
  all_goals simp_all

end Move

/-! ## The fairness flag -/

/-- A thread owing a fairness steal has an empty slot and is at the head of its
loop, before or at the test of line 181. -/
def FlagInv (w : Worker W) : Prop :=
  w.shouldStealForFairness = true → w.cown = none ∧ (w.pc = .top ∨ w.pc = .fairness)

theorem flagInv_step (cfg : Config W) (i : Fin W) (a : Answer) (s : Sys W)
    (h : FlagInv (s.worker i)) : FlagInv ((workerStep cfg i a s).1.worker i) := by
  have hm := workerStep_move cfg i a s
  intro hf
  rw [hm.flag, decide_eq_true_iff] at hf
  rcases hf with ⟨hpc, hc, -⟩ | ⟨hf, hnf⟩
  · exact ⟨(hm.prerun_token hpc hc).1, .inl (hm.prerun_token hpc hc).2⟩
  · obtain ⟨hc, hpc | hpc⟩ := h hf
    · rw [hm.top hpc]; exact ⟨hc, .inr rfl⟩
    · exact absurd ⟨hpc, hc⟩ hnf

theorem flagInv_reachable {cfg : Config W} {Adm : Trace W → Sys W → Label W → Prop}
    {s₀ : Sys W} {tr : Trace W} {s : Sys W} (hr : Reach cfg Adm s₀ tr s) (i : Fin W) :
    FlagInv (s.worker i) :=
  reach_worker (fun _ w => FlagInv w) (fun _ h => by simp [initWorker] at h)
    (fun i a _ _ ih => flagInv_step cfg i a _ (ih i))
    (fun _ _ h => ⟨h, by rw [Worker.wantLd_eq]; exact h, fun _ => h⟩) hr i

/-- Only `prerun` raises the flag, on the thread's own token under `fair`. -/
theorem flag_rises_only_at_prerun (cfg : Config W) (s : Sys W) (l : Label W) (j : Fin W)
    (h₀ : (s.worker j).shouldStealForFairness = false)
    (h₁ : ((next cfg l s).1.worker j).shouldStealForFairness = true) :
    ∃ a, l = .worker j a ∧ (s.worker j).pc = .prerun ∧ (s.worker j).cown = some (.token j) ∧
      cfg.fair = true := by
  cases l with
  | worker i a =>
    rcases eq_or_ne j i with rfl | hj
    · refine ⟨a, rfl, ?_⟩
      change ((workerStep cfg j a s).1.worker j).shouldStealForFairness = true at h₁
      rw [(workerStep_move cfg j a s).flag, decide_eq_true_iff] at h₁
      simpa [h₀] using h₁
    · simp [next, workerStep_worker_ne cfg i a s hj, h₀] at h₁
  | env e =>
    change ((envStep e s).1.worker j).shouldStealForFairness = true at h₁
    rcases envStep_worker e s j with h | h | h | ⟨b, h⟩ <;>
      simp [h, h₀, Worker.wantLd_eq] at h₁

/-- The fairness flag (lines 181–188, 208–212, 248–254): it rises only in
`prerun`, on the thread's own token under `fair`; while it is up the thread is
at the head of its loop with an empty slot; the test of line 181 then lowers it
and makes exactly one `fast_steal`, on `victim`, before the local dequeue; and
it is down whenever the thread dispatches (`cown->run`) or reschedules. -/
theorem fairness_steal_first {cfg : Config W} {Adm : Trace W → Sys W → Label W → Prop}
    {s₀ : Sys W} {tr : Trace W} {s : Sys W} (hr : Reach cfg Adm s₀ tr s) :
    (∀ l j, (s.worker j).shouldStealForFairness = false →
      ((next cfg l s).1.worker j).shouldStealForFairness = true →
      ∃ a, l = .worker j a ∧ (s.worker j).pc = .prerun ∧ (s.worker j).cown = some (.token j) ∧
        cfg.fair = true) ∧
    (∀ i, (s.worker i).shouldStealForFairness = true →
      (s.worker i).cown = none ∧ ((s.worker i).pc = .top ∨ (s.worker i).pc = .fairness)) ∧
    (∀ i a, (s.worker i).pc = .fairness → (s.worker i).shouldStealForFairness = true →
      ((workerStep cfg i a s).1.worker i).shouldStealForFairness = false ∧
      ((workerStep cfg i a s).1.worker i).pc = .popLocal ∧
      ∃ o, (workerStep cfg i a s).2 = .stealAttempt (s.worker i).victim o ::
        (o.join.map (.dequeue (s.worker i).victim)).toList) ∧
    (∀ i, (s.worker i).pc = .dispatch ∨ (s.worker i).pc = .reschedule →
      (s.worker i).shouldStealForFairness = false) := by
  refine ⟨flag_rises_only_at_prerun cfg s, fun i => flagInv_reachable hr i,
    fun i a hpc hf => (workerStep_move cfg i a s).fairness_owed hpc hf (flagInv_reachable hr i hf).1,
    fun i hpc => ?_⟩
  cases hf : (s.worker i).shouldStealForFairness
  · rfl
  · rcases (flagInv_reachable hr i hf).2 with h | h <;> rcases hpc with h' | h' <;> simp_all

/-- Three cores on a fair ring: cores `0` and `1` hold their tokens, core `2`
holds cown `5`. -/
def fairStart : Sys 3 where
  core k := ⟨if k = 0 then [.token 0] else if k = 1 then [.token 1] else [.cown 5], [], 0, 0, 0, 0, 1⟩
  worker := initWorker (Config.ring 2 true false)
  cownOf _ := ⟨none, .epochA, 1, none⟩

theorem fairStart_init : Init (Config.ring 2 true false) fairStart where
  worker _ := rfl
  nodup := by decide
  tokenHome k j h := by revert h; revert k j; decide
  serviced _ := rfl

/-- Thread `0` pops its token, re-enqueues it in `prerun`, which raises the
flag, and comes round to the fairness test; thread `1` pops its token; thread
`2` pops cown `5` and goes through `ld_protocol` to `cown->run`. -/
def fairRun : Trace 3 × Sys 3 :=
  runSteps (Config.ring 2 true false)
    (List.replicate 5 (0, answering .notInLD) ++ List.replicate 3 (1, answering .notInLD) ++
      List.replicate 7 (2, answering .notInLD)) ([], fairStart)

/-- Thread `0` is at the fairness test with the flag up, and its step is the one
`fast_steal`, on core `1`, found empty; thread `1`'s next step raises its flag in
`prerun`; thread `2` is about to dispatch with the flag down. -/
theorem fairness_steal_first_on_ring :
    let cfg := Config.ring 2 true false
    let s := fairRun.2
    Reach cfg anyStep fairStart fairRun.1 s ∧
    ((s.worker 0).pc = .fairness ∧ (s.worker 0).shouldStealForFairness = true ∧
      (workerStep cfg 0 (answering .notInLD) s).2 = [.stealAttempt 1 (some none)] ∧
      (s.worker 1).pc = .prerun ∧ (s.worker 1).cown = some (.token 1) ∧
      (s.worker 1).shouldStealForFairness = false ∧
      ((next cfg (.worker 1 (answering .notInLD)) s).1.worker 1).shouldStealForFairness = true ∧
      (s.worker 2).pc = .dispatch) ∧
    (∀ l j, (s.worker j).shouldStealForFairness = false →
      ((next cfg l s).1.worker j).shouldStealForFairness = true →
      ∃ a, l = .worker j a ∧ (s.worker j).pc = .prerun ∧ (s.worker j).cown = some (.token j) ∧
        cfg.fair = true) ∧
    (∀ i, (s.worker i).shouldStealForFairness = true →
      (s.worker i).cown = none ∧ ((s.worker i).pc = .top ∨ (s.worker i).pc = .fairness)) ∧
    (∀ i a, (s.worker i).pc = .fairness → (s.worker i).shouldStealForFairness = true →
      ((workerStep cfg i a s).1.worker i).shouldStealForFairness = false ∧
      ((workerStep cfg i a s).1.worker i).pc = .popLocal ∧
      ∃ o, (workerStep cfg i a s).2 = .stealAttempt (s.worker i).victim o ::
        (o.join.map (.dequeue (s.worker i).victim)).toList) ∧
    (∀ i, (s.worker i).pc = .dispatch ∨ (s.worker i).pc = .reschedule →
      (s.worker i).shouldStealForFairness = false) :=
  have hr := reach_runSteps _ (fun _ _ _ _ => trivial) (.init fairStart_init)
  ⟨hr, by decide, fairness_steal_first hr⟩

/-! ## `n_ld_tokens` -/

/-- `n_ld_tokens` is 0, 1 or 2. -/
def NLdOk (w : Worker W) : Prop := w.nLdTokens = 0 ∨ w.nLdTokens = 1 ∨ w.nLdTokens = 2

theorem nLdOk_step (cfg : Config W) (i : Fin W) (a : Answer) (s : Sys W)
    (h : NLdOk (s.worker i)) : NLdOk ((workerStep cfg i a s).1.worker i) := by
  unfold NLdOk at h ⊢
  rcases (workerStep_move cfg i a s).nLdTokens with h' | h' | h' | ⟨-, -, hpos, h'⟩ <;> rw [h']
  · exact h
  · exact .inl rfl
  · exact .inr (.inr rfl)
  · rcases h with h | h | h <;> rw [h] at hpos ⊢ <;> revert hpos <;> decide

theorem nLdOk_reachable {cfg : Config W} {Adm : Trace W → Sys W → Label W → Prop}
    {s₀ : Sys W} {tr : Trace W} {s : Sys W} (hr : Reach cfg Adm s₀ tr s) (i : Fin W) :
    NLdOk (s.worker i) :=
  reach_worker (fun _ w => NLdOk w) (fun _ => .inl rfl)
    (fun i a _ _ ih => nLdOk_step cfg i a _ (ih i))
    (fun _ _ h => ⟨h, by rw [Worker.wantLd_eq]; exact h, fun _ => h⟩) hr i

/-- Only a step of the thread itself writes its `n_ld_tokens`. -/
theorem nLdTokens_writes (cfg : Config W) (s : Sys W) (l : Label W) (j : Fin W)
    (h : ((next cfg l s).1.worker j).nLdTokens ≠ (s.worker j).nLdTokens) :
    ∃ a, l = .worker j a ∧ (((next cfg l s).1.worker j).nLdTokens = 0 ∨
      ((next cfg l s).1.worker j).nLdTokens = 2 ∨
      ((s.worker j).pc = .prerun ∧ (s.worker j).cown = some (.token j) ∧
        0 < (s.worker j).nLdTokens ∧
        ((next cfg l s).1.worker j).nLdTokens = (s.worker j).nLdTokens - 1)) := by
  cases l with
  | worker i a =>
    rcases eq_or_ne j i with rfl | hj
    · exact ⟨a, rfl, (workerStep_move cfg j a s).nLdTokens.resolve_left h⟩
    · simp [next, workerStep_worker_ne cfg i a s hj] at h
  | env e =>
    change ((envStep e s).1.worker j).nLdTokens ≠ _ at h
    rcases envStep_worker e s j with h' | h' | h' | ⟨b, h'⟩ <;>
      simp [h', Worker.wantLd_eq] at h

/-- `n_ld_tokens` (lines 275, 366–371, 384, 462–482, 667–680): in every
reachable state it is 0, 1 or 2; it is written only by its own thread, to 0,
to 2, or lowered by one in `prerun` on the thread's own token when positive;
and there the assertion of `dec_n_ld_tokens` holds and the `uint8_t`
decrement does not wrap. -/
theorem ld_tokens_bounded {cfg : Config W} {Adm : Trace W → Sys W → Label W → Prop}
    {s₀ : Sys W} {tr : Trace W} {s : Sys W} (hr : Reach cfg Adm s₀ tr s) :
    (∀ i, (s.worker i).nLdTokens = 0 ∨ (s.worker i).nLdTokens = 1 ∨
      (s.worker i).nLdTokens = 2) ∧
    (∀ l j, ((next cfg l s).1.worker j).nLdTokens ≠ (s.worker j).nLdTokens →
      ∃ a, l = .worker j a ∧ (((next cfg l s).1.worker j).nLdTokens = 0 ∨
        ((next cfg l s).1.worker j).nLdTokens = 2 ∨
        ((s.worker j).pc = .prerun ∧ (s.worker j).cown = some (.token j) ∧
          0 < (s.worker j).nLdTokens ∧
          ((next cfg l s).1.worker j).nLdTokens = (s.worker j).nLdTokens - 1))) ∧
    (∀ i, 0 < (s.worker i).nLdTokens → (s.worker i).decNLdTokensAsserts = true ∧
      ((s.worker i).nLdTokens - 1).toNat = (s.worker i).nLdTokens.toNat - 1) := by
  refine ⟨nLdOk_reachable hr, nLdTokens_writes cfg s, fun i hpos => ?_⟩
  rcases nLdOk_reachable hr i with h | h | h <;>
    simp only [Worker.decNLdTokensAsserts, h] at hpos ⊢ <;> revert hpos <;> decide

/-- One core whose queue holds cown `5` and its token. -/
def ldStart : Sys 1 where
  core _ := ⟨[.cown 5, .token 0], [], 0, 0, 0, 0, 1⟩
  worker := initWorker (Config.ring 0 false false)
  cownOf _ := ⟨none, .epochA, 1, none⟩

theorem ldStart_init : Init (Config.ring 0 false false) ldStart where
  worker _ := rfl
  nodup := by decide
  tokenHome _ _ _ := @Subsingleton.elim (Fin 1) _ _ _
  serviced _ := rfl

/-- The thread pops cown `5`, is moved to `Scan` in `ld_protocol`
(`enter_scan` sets `n_ld_tokens = 2`), runs it, and pops its token. -/
def ldRun : Trace 1 × Sys 1 :=
  runSteps (Config.ring 0 false false) (List.replicate 6 (0, answering .notInLD) ++
    [(0, answering .scan)] ++ List.replicate 4 (0, answering .notInLD)) ([], ldStart)

/-- The thread is in `prerun` on its own token with `n_ld_tokens = 2`, and its
next step lowers it to `1`. -/
theorem ld_tokens_bounded_on_sighting :
    let cfg := Config.ring 0 false false
    let s := ldRun.2
    Reach cfg anyStep ldStart ldRun.1 s ∧
    ((s.worker 0).pc = .prerun ∧ (s.worker 0).cown = some (.token 0) ∧ (s.worker 0).nLdTokens = 2 ∧
      ((next cfg (.worker 0 (answering .notInLD)) s).1.worker 0).nLdTokens = 1) ∧
    (∀ i, (s.worker i).nLdTokens = 0 ∨ (s.worker i).nLdTokens = 1 ∨
      (s.worker i).nLdTokens = 2) ∧
    (∀ l j, ((next cfg l s).1.worker j).nLdTokens ≠ (s.worker j).nLdTokens →
      ∃ a, l = .worker j a ∧ (((next cfg l s).1.worker j).nLdTokens = 0 ∨
        ((next cfg l s).1.worker j).nLdTokens = 2 ∨
        ((s.worker j).pc = .prerun ∧ (s.worker j).cown = some (.token j) ∧
          0 < (s.worker j).nLdTokens ∧
          ((next cfg l s).1.worker j).nLdTokens = (s.worker j).nLdTokens - 1))) ∧
    (∀ i, 0 < (s.worker i).nLdTokens → (s.worker i).decNLdTokensAsserts = true ∧
      ((s.worker i).nLdTokens - 1).toNat = (s.worker i).nLdTokens.toNat - 1) :=
  have hr := reach_runSteps _ (fun _ _ _ _ => trivial) (.init ldStart_init)
  ⟨hr, by decide, ld_tokens_bounded hr⟩

end Verona.Rt
