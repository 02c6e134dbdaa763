import VeronaScheduler.Move

/- What a step leaves alone, and the induction every per-thread invariant uses.

   A step of thread `i` changes no other thread's record
   (`workerStep_worker_ne`, read off `Move`), and the
   environment changes a thread's record only by `stop()`, `want_ld()` or the
   flag `schedule_fifo` sets. So a property of one thread's record that holds
   initially and that the thread's own steps keep holds in every reachable
   state (`reach_worker`). -/
namespace Verona.Rt

variable {W : Nat}

/-! ## Frames -/

theorem Worker.wantLd_eq (w : Worker W) :
    w.wantLd = { w with state := if w.state = .notInLD then .wantLD else w.state } := by
  unfold Worker.wantLd Worker.ldStateChange; split <;> simp_all

/-- A step of thread `i` writes no other thread's record. -/
theorem workerStep_worker_ne (cfg : Config W) (i : Fin W) (a : Answer) (s : Sys W) {j : Fin W}
    (h : j ≠ i) : (workerStep cfg i a s).1.worker j = s.worker j :=
  (workerStep_move cfg i a s).worker_ne h

/-- What the environment does to thread `j`: nothing, `stop()` or `want_ld()`;
a `schedule_lifo` onto its core; or a `schedule_fifo` on it. -/
theorem envStep_thread (e : EnvAction W) (s : Sys W) (j : Fin W) :
    (threadEvents j (envStep e s).2 = [] ∧
      ((envStep e s).1.worker j = s.worker j ∨
        (envStep e s).1.worker j = { s.worker j with running := false } ∨
        (envStep e s).1.worker j = (s.worker j).wantLd)) ∨
    (∃ c, threadEvents j (envStep e s).2 = [.enqueueFront j (.cown c)] ∧
      (envStep e s).1.worker j = s.worker j) ∨
    ∃ x sc, threadEvents j (envStep e s).2 = [.scheduleFifo x sc, .enqueue j x] ∧
      (envStep e s).1.worker j =
        { s.worker j with scheduledUnscannedCown := (s.worker j).scheduledUnscannedCown || !sc } := by
  cases e with
  | scheduleFifo i c =>
    rcases eq_or_ne j i with rfl | hj
    · exact .inr (.inr ⟨.cown c, s.scanned (.cown c) (s.worker j).sendEpoch,
        by simp [envStep, scheduleFifo, threadEvents], by simp [envStep, scheduleFifo]⟩)
    · exact .inl ⟨by simp [envStep, scheduleFifo, threadEvents, hj.symm],
        .inl (by simp [envStep, scheduleFifo, Function.update_noteq hj])⟩
  | scheduleLifo k c =>
    rcases eq_or_ne j k with rfl | hj
    · exact .inr (.inl ⟨c, by simp [envStep, threadEvents], rfl⟩)
    · exact .inl ⟨by simp [envStep, threadEvents, hj.symm], .inl rfl⟩
  | stop i =>
    rcases eq_or_ne j i with rfl | hj
    · exact .inl ⟨rfl, .inr (.inl (by simp [envStep]))⟩
    · exact .inl ⟨rfl, .inl (by simp [envStep, Function.update_noteq hj])⟩
  | wantLd i =>
    rcases eq_or_ne j i with rfl | hj
    · exact .inl ⟨rfl, .inr (.inr (by simp [envStep]))⟩
    · exact .inl ⟨rfl, .inl (by simp [envStep, Function.update_noteq hj])⟩
  | releaseWeak c => exact .inl (by simp only [envStep]; split <;> exact ⟨rfl, .inl rfl⟩)
  | setEpochMark | setEpochWhenPopped => exact .inl ⟨rfl, .inl rfl⟩

/-- The environment touches a thread's record only through `stop()`, `want_ld()`
and the flag `schedule_fifo` sets. -/
theorem envStep_worker (e : EnvAction W) (s : Sys W) (j : Fin W) :
    (envStep e s).1.worker j = s.worker j ∨
    (envStep e s).1.worker j = { s.worker j with running := false } ∨
    (envStep e s).1.worker j = (s.worker j).wantLd ∨
    ∃ b, (envStep e s).1.worker j = { s.worker j with scheduledUnscannedCown := b } := by
  rcases envStep_thread e s j with ⟨-, h | h | h⟩ | ⟨_, -, h⟩ | ⟨_, _, -, h⟩
  exacts [.inl h, .inr (.inl h), .inr (.inr (.inl h)), .inl h, .inr (.inr (.inr ⟨_, h⟩))]

/-- The environment moves no thread's program point. -/
@[simp] theorem envStep_pc (e : EnvAction W) (s : Sys W) (j : Fin W) :
    ((envStep e s).1.worker j).pc = (s.worker j).pc := by
  rcases envStep_worker e s j with h | h | h | ⟨b, h⟩ <;> simp [h, Worker.wantLd_eq]

section Run

variable {cfg : Config W} {Adm : Trace W → Sys W → Label W → Prop} {s₀ : Sys W}

/-- A property of each thread's record and own events that holds at the start,
that the thread's own steps keep, and that `stop()`, `want_ld()`,
`schedule_lifo` and `schedule_fifo` keep, holds in every reachable state. -/
theorem reach_thread (P : Fin W → List (Event W) → Worker W → Prop)
    (hinit : ∀ i, P i [] (initWorker cfg i))
    (hstep : ∀ {tr s} i a, Reach cfg Adm s₀ tr s → Adm tr s (.worker i a) →
      (∀ j, P j (threadEvents j tr) (s.worker j)) →
      P i (threadEvents i tr ++ (workerStep cfg i a s).2) ((workerStep cfg i a s).1.worker i))
    (henv : ∀ i es w, P i es w → P i es { w with running := false } ∧ P i es w.wantLd ∧
      (∀ c, P i (es ++ [.enqueueFront i (.cown c)]) w) ∧
      ∀ x sc, P i (es ++ [.scheduleFifo x sc, .enqueue i x])
        { w with scheduledUnscannedCown := w.scheduledUnscannedCown || !sc })
    {tr : Trace W} {s : Sys W} (h : Reach cfg Adm s₀ tr s) :
    ∀ j, P j (threadEvents j tr) (s.worker j) := by
  induction h with
  | init h0 => exact fun j => h0.worker j ▸ hinit j
  | step l hr _ ha ih =>
    intro j
    cases l with
    | worker i a =>
      rcases eq_or_ne j i with rfl | hj
      · simpa [next] using hstep j a hr ha ih
      · simpa [next, workerStep_worker_ne cfg i a _ hj, hj.symm] using ih j
    | env e =>
      have hP := henv j _ _ (ih j)
      show P j (threadEvents j (_ ++ (envStep e _).2)) ((envStep e _).1.worker j)
      rw [threadEvents_append]
      rcases envStep_thread e _ j with ⟨he, h | h | h⟩ | ⟨c, he, h⟩ | ⟨x, sc, he, h⟩ <;> rw [he, h]
      exacts [by simpa using ih j, by simpa using hP.1, by simpa using hP.2.1, hP.2.2.1 c,
        hP.2.2.2 x sc]

/-- The same for a property of the record alone. -/
theorem reach_worker (P : Fin W → Worker W → Prop) (hinit : ∀ i, P i (initWorker cfg i))
    (hstep : ∀ {tr s} i a, Reach cfg Adm s₀ tr s → Adm tr s (.worker i a) →
      (∀ j, P j (s.worker j)) → P i ((workerStep cfg i a s).1.worker i))
    (henv : ∀ i w, P i w → P i { w with running := false } ∧ P i w.wantLd ∧
      ∀ b, P i { w with scheduledUnscannedCown := b })
    {tr : Trace W} {s : Sys W} (h : Reach cfg Adm s₀ tr s) : ∀ j, P j (s.worker j) :=
  reach_thread (fun i _ w => P i w) hinit (fun i a hr ha ih => hstep i a hr ha ih)
    (fun i _ w hw => ⟨(henv i w hw).1, (henv i w hw).2.1, fun _ => hw,
      fun _ _ => (henv i w hw).2.2 _⟩) h

end Run

end Verona.Rt
