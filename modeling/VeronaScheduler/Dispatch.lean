import VeronaScheduler.Move
import VeronaScheduler.Conservation

/- What a thread holds while it dispatches, and the progress counters (lines
   208–281).

   `prerun` binds a cown with no owning core to the thread's core (lines
   499–506), and nothing else writes `owning_core`: a bound cown stays bound to
   the same core for good (`workerStep_owner`, `envStep_owner`). So from
   `prerun` to the end of the iteration the slot holds a cown, never a token or
   null, and that cown is bound to a core, and in `steal` the slot is empty
   (`homed_reachable`, `dispatch_cown_bound`): the test `cown_core != nullptr` of line 240
   never fails.

   The progress counters then count dispatches exactly
   (`progress_counts_dispatches`): core `k`'s counter has grown by one for each
   `run` on thread `k` and by one for each `run` on another thread of a cown
   bound to `k`, and a run of one of `k`'s own cowns on `k` is counted once. -/
namespace Verona.Rt

variable {W : Nat}

/-! ## Bindings -/

section Owner

variable (cfg : Config W) (i : Fin W) (a : Answer) (s : Sys W)

/-- `register` writes only the owner of an unbound cown. -/
theorem register_owner (cownOf : CownId → CownRec W) (core : Core W) (c d : CownId) :
    ((register i cownOf core c).1 d).owningCore =
      if d = c ∧ (cownOf c).owningCore = none then some i else (cownOf d).owningCore := by
  unfold register
  by_cases hd : d = c
  · subst hd; split <;> simp_all
  · split <;> simp_all

/-- A step binds at most the cown in its own slot, in `prerun`, to its own
core, and only if that cown is unbound. -/
theorem workerStep_owner (c : CownId) :
    ((workerStep cfg i a s).1.cownOf c).owningCore =
      if (s.worker i).pc = .prerun ∧ (s.worker i).cown = some (.cown c) ∧
        (s.cownOf c).owningCore = none then some i else (s.cownOf c).owningCore := by
  rcases (workerStep_move cfg i a s).registry with ⟨hg, h, -⟩ | ⟨t, hpc, h, -⟩ | ⟨d, hpc, hc, h, -⟩ <;>
    rw [h]
  · rw [if_neg fun ⟨hp, hc, _⟩ => hg ⟨hp, c, hc⟩]
  · rw [if_neg fun ⟨hp, _⟩ => by rcases hpc with ⟨hpc, -⟩ | ⟨hpc, -⟩ <;> simp [hpc] at hp]
  · rw [register_owner, hc]
    by_cases e : c = d
    · subst e; simp [hpc]
    · simp [e, Ne.symm e]

/-- The environment writes no owner. -/
theorem envStep_owner (e : EnvAction W) (c : CownId) :
    ((envStep e s).1.cownOf c).owningCore = (s.cownOf c).owningCore := by
  rcases envStep_cores e s with ⟨h, -⟩ | ⟨d, k, -, -, h, -⟩
  · exact (h c).1
  · rw [h]; unfold releaseWeak
    by_cases e : c = d
    · subst e; simp
    · simp [e]

/-- A bound cown stays bound to the same core over any step of the system. -/
theorem next_owner (l : Label W) {c : CownId} {k : Fin W} (h : (s.cownOf c).owningCore = some k) :
    ((next cfg l s).1.cownOf c).owningCore = some k := by
  cases l with
  | worker j b => simp [next, workerStep_owner, h]
  | env e => exact (envStep_owner s e c).trans h

theorem next_owner_ne_none (l : Label W) {c : CownId} (h : (s.cownOf c).owningCore ≠ none) :
    ((next cfg l s).1.cownOf c).owningCore ≠ none := by
  obtain ⟨k, hk⟩ := Option.ne_none_iff_exists'.mp h
  simp [next_owner cfg s l hk]

end Owner

/-! ## The slot from `prerun` on -/

/-- Where the slot is empty (`steal`, and from the end of the loop on), and
where it holds a cown bound to a core (lines 208–281). -/
def Homed (s : Sys W) (w : Worker W) : Prop :=
  match w.pc with
  | .steal | .ldEntry .steal | .ldLoop .steal | .stealLocal | .stealVictim | .exit | .barrier
  | .phase2 | .release | .destroy | .finished => w.cown = none
  | .scanHint | .ldEntry .runInner | .ldLoop .runInner | .dispatch | .reschedule | .swap _
  | .queueEmpty | .fairSteal => ∃ c, w.cown = some (.cown c) ∧ (s.cownOf c).owningCore ≠ none
  | .top | .fairness | .popLocal | .prerun => True

/-- `Homed` reads only the slot and the program point of the thread, and the
owners of the cown table, which only ever get set. -/
theorem Homed.mono {s s' : Sys W} {w w' : Worker W} (h : Homed s w) (hpc : w'.pc = w.pc)
    (hc : w'.cown = w.cown)
    (ho : ∀ c, (s.cownOf c).owningCore ≠ none → (s'.cownOf c).owningCore ≠ none) : Homed s' w' := by
  unfold Homed at h ⊢
  rw [hpc, hc]
  generalize w.pc = p at h ⊢
  cases p <;> (try cases ‹LdCaller›) <;> first | exact h | trivial |
    (obtain ⟨c, hc, hb⟩ := h; exact ⟨c, hc, ho c hb⟩)

section Move

variable {cfg : Config W} {i : Fin W} {a : Answer} {s s' : Sys W} {w : Worker W}
  {es : List (Event W)}

/-- A move keeps `Homed`, given that no owner is unset and that `prerun`
binds the cown it keeps. -/
theorem Move.homed (hm : Move cfg i a s w s' es) (h : Homed s w)
    (ho : ∀ c, (s.cownOf c).owningCore ≠ none → (s'.cownOf c).owningCore ≠ none)
    (hb : ∀ c, w.pc = .prerun → w.cown = some (.cown c) → (s'.cownOf c).owningCore ≠ none) :
    Homed s' (s'.worker i) := by
  replace h : Homed s' w := h.mono rfl rfl ho
  clear ho
  cases hm
  case prerunCown c hpc hc => simpa using (⟨c, hc, hb c hpc hc⟩ : ∃ d, _)
  case release => split <;> simp_all [Homed]
  all_goals clear hb
  all_goals (try cases ‹LdCaller›) <;> simp_all [Homed, LdCaller.resume, Worker.ldStateChange,
    Worker.enterScan, Worker.enterPrescan]

end Move

theorem workerStep_homed (cfg : Config W) (i : Fin W) (a : Answer) (s : Sys W)
    (h : Homed s (s.worker i)) : Homed (workerStep cfg i a s).1 ((workerStep cfg i a s).1.worker i) :=
  (workerStep_move cfg i a s).homed h (fun _ => next_owner_ne_none cfg s (.worker i a))
    fun c hpc hc => by rw [workerStep_owner]; split <;> simp_all

/-- Any step of the system keeps every thread `Homed`. -/
theorem next_homed (cfg : Config W) (l : Label W) {s : Sys W} (h : ∀ j, Homed s (s.worker j)) (j : Fin W) :
    Homed (next cfg l s).1 ((next cfg l s).1.worker j) := by
  cases l with
  | worker i a =>
    rcases eq_or_ne j i with rfl | hj
    · exact workerStep_homed cfg j a s (h j)
    · exact (h j).mono (by simp [next, workerStep_worker_ne cfg i a s hj])
        (by simp [next, workerStep_worker_ne cfg i a s hj]) fun _ => next_owner_ne_none cfg s _
  | env e =>
    rcases envStep_worker e s j with h' | h' | h' | ⟨b, h'⟩ <;>
      exact (h j).mono (by simp [next, h', Worker.wantLd_eq]) (by simp [next, h', Worker.wantLd_eq])
        fun _ => next_owner_ne_none cfg s _

/-- Every thread's slot is `Homed` in every state of every run. -/
theorem homed_reachable {cfg : Config W} {Adm : Trace W → Sys W → Label W → Prop} {s₀ : Sys W}
    {tr : Trace W} {s : Sys W} (hr : Reach cfg Adm s₀ tr s) : ∀ j, Homed s (s.worker j) := by
  induction hr with
  | init h => intro j; rw [h.worker j]; trivial
  | step l _ _ _ ih => exact next_homed cfg l ih

/-- **At a dispatch the slot holds a bound cown** (lines 234–246): in every
reachable state, a thread about to call `cown->run` holds a cown in its slot,
never a token or null, and that cown has an owning core, so the test
`cown_core != nullptr` of line 240 always holds. -/
theorem dispatch_cown_bound {cfg : Config W} {Adm : Trace W → Sys W → Label W → Prop}
    {s₀ : Sys W} {tr : Trace W} {s : Sys W} (hr : Reach cfg Adm s₀ tr s) (j : Fin W)
    (hpc : (s.worker j).pc = .dispatch) :
    ∃ c k, (s.worker j).cown = some (.cown c) ∧ (s.cownOf c).owningCore = some k := by
  have h := homed_reachable hr j
  unfold Homed at h
  rw [hpc] at h
  obtain ⟨c, hc, hk⟩ := h
  exact ⟨c, _, hc, (Option.ne_none_iff_exists'.mp hk).choose_spec⟩

/-- Cown `5` is dispatched after seven steps from `swapStart`. -/
theorem dispatch_cown_bound_on_swap :
    Reach (Config.ring 0 false false) anyStep swapStart (swapRun 7).1 (swapRun 7).2 ∧
    ((swapRun 7).2.worker 0).pc = .dispatch ∧
    ∃ c k, ((swapRun 7).2.worker 0).cown = some (.cown c) ∧
      ((swapRun 7).2.cownOf c).owningCore = some k :=
  have hr := reach_runSteps _ (fun _ _ _ _ => trivial) (.init swapStart_init)
  ⟨hr, by decide, dispatch_cown_bound hr 0 (by decide)⟩

/-! ## The progress counters -/

theorem Core.progressCounter_eq_of_unqueued {c d : Core W} (h : c.unqueued = d.unqueued) :
    c.progressCounter = d.progressCounter := by
  have h' := congrArg Core.progressCounter h
  exact h'

@[simp] theorem Sys.bumpProgress_progressCounter (s : Sys W) (k' k : Fin W) :
    ((s.bumpProgress k').core k).progressCounter =
      (s.core k).progressCounter + if k = k' then 1 else 0 := by
  rcases eq_or_ne k k' with rfl | hk <;> simp [Sys.bumpProgress, Function.update_apply, *]

@[simp] theorem Sys.bumpProgress_owningCore (s : Sys W) (k : Fin W) (x : Item W) :
    (s.bumpProgress k).owningCore x = s.owningCore x := by
  cases x <;> rfl

/-- Lines 238–242: a dispatch on thread `i` counts once on `i`'s core and once
on the cown's core, and once in all if the two are the same. -/
theorem countDispatch_progressCounter (i : Fin W) (s : Sys W) (x : Item W) (k : Fin W) :
    ((countDispatch i s x).core k).progressCounter =
      (s.core k).progressCounter + if k = i ∨ s.owningCore x = some k then 1 else 0 := by
  have hl : ∀ t : Sys W, ((t.setCore i { t.core i with lastWorker := i }).core k).progressCounter =
      (t.core k).progressCounter := fun t => by
    rcases eq_or_ne k i with rfl | hk <;> simp [Function.update_apply, *]
  unfold countDispatch
  rcases h : s.owningCore x with _ | k' <;> simp only [hl, Sys.bumpProgress_owningCore, h]
  · simp
  · rcases eq_or_ne k' i with rfl | hi
    · rcases eq_or_ne k k' with rfl | hk
      · simp
      · simp [hk, Ne.symm hk]
    · rcases eq_or_ne k k' with rfl | hk
      · simp [hi]
      · simp [hi, hk, Ne.symm hk]

/-- Whether event `e` of thread `i` is a dispatch that lines 238–241 count on
core `k`, with the owners of `s`. -/
def countsOn (s : Sys W) (k i : Fin W) : Event W → Bool
  | .run x _ => decide (k = i ∨ s.owningCore x = some k)
  | _ => false

/-- The dispatches of trace `tr` that count on core `k`, with the owners of
`s`. -/
def dispatchesOn (s : Sys W) (k : Fin W) (tr : Trace W) : Nat :=
  tr.countP fun p => countsOn s k p.1 p.2

theorem dispatchesOn_append (s : Sys W) (k : Fin W) (tr tr' : Trace W) :
    dispatchesOn s k (tr ++ tr') = dispatchesOn s k tr + dispatchesOn s k tr' :=
  List.countP_append _ _ _

theorem dispatchesOn_eq_zero {s : Sys W} {k : Fin W} {tr : Trace W}
    (h : ∀ p ∈ tr, ∀ x b, p.2 ≠ .run x b) : dispatchesOn s k tr = 0 :=
  List.countP_eq_zero.mpr fun ⟨_, e⟩ hp => by
    cases e with
    | run x b => exact absurd rfl (h _ hp x b)
    | _ => simp [countsOn]

/-- Every value that trace `tr` ran has an owning core in `s`. -/
def RunsBound (s : Sys W) (tr : Trace W) : Prop :=
  ∀ p ∈ tr, ∀ x b, p.2 = .run x b → s.owningCore x ≠ none

section Move

variable {cfg : Config W} {i : Fin W} {a : Answer} {s : Sys W} {w : Worker W} {s' : Sys W}
  {es : List (Event W)}

/-- Only a dispatch emits `run`, and of the value in the slot. -/
theorem Move.run_mem (hm : Move cfg i a s w s' es) {x : Item W} {b : Bool}
    (h : Event.run x b ∈ es) : w.pc = .dispatch ∧ w.cown = some x := by
  cases hm
  case collectStubs | phase2 => split at h <;> simp at h
  all_goals simp_all [Worker.enterScan, Worker.enterPrescan]

/-- A move adds to each core's counter what its `run` events count on that core. -/
theorem Move.progressCounter (hm : Move cfg i a s w s' es) (k : Fin W) :
    (s'.core k).progressCounter = (s.core k).progressCounter + es.countP (countsOn s k i) := by
  cases hm
  case dispatchReschedule | dispatchDone =>
    simp [countDispatch_progressCounter, countsOn, List.countP_cons]
  case collectStubs | phase2 => split <;> simp [countsOn]
  all_goals simp [countsOn, Worker.enterScan, Worker.enterPrescan]

end Move

section Progress

variable (cfg : Config W) (i : Fin W) (a : Answer) (s : Sys W)

/-- A step of thread `i` adds to each core's counter what its `run` events
count on that core. -/
theorem workerStep_progressCounter (k : Fin W) :
    ((workerStep cfg i a s).1.core k).progressCounter =
      (s.core k).progressCounter + (workerStep cfg i a s).2.countP (countsOn s k i) :=
  (workerStep_move cfg i a s).progressCounter k

/-- A cown with an owning core keeps it over any step. -/
theorem next_owningCore (l : Label W) {x : Item W} (h : s.owningCore x ≠ none) :
    (next cfg l s).1.owningCore x = s.owningCore x := by
  cases x with
  | cown c =>
    obtain ⟨k, hk⟩ := Option.ne_none_iff_exists'.mp h
    exact (next_owner cfg s l hk).trans hk.symm
  | token k => rfl

theorem countsOn_next (l : Label W) {k j : Fin W} {e : Event W}
    (h : ∀ x b, e = .run x b → s.owningCore x ≠ none) :
    countsOn (next cfg l s).1 k j e = countsOn s k j e := by
  cases e with
  | run x b => simp only [countsOn, next_owningCore cfg s l (h x b rfl)]
  | _ => rfl

theorem dispatchesOn_next (l : Label W) {tr : Trace W} (h : RunsBound s tr) (k : Fin W) :
    dispatchesOn (next cfg l s).1 k tr = dispatchesOn s k tr :=
  List.countP_congr fun p hp => by rw [countsOn_next cfg s l (h p hp)]

/-- The environment runs nothing. -/
theorem envStep_no_run (e : EnvAction W) {p : Fin W × Event W} (hp : p ∈ (envStep e s).2)
    (x : Item W) (b : Bool) : p.2 ≠ .run x b := by
  cases e with
  | scheduleFifo i c =>
    simp only [envStep, scheduleFifo, List.map_cons, List.map_nil, List.mem_cons,
      List.mem_singleton, List.not_mem_nil, or_false] at hp
    rcases hp with rfl | rfl <;> simp
  | scheduleLifo k c => simp only [envStep, List.mem_singleton] at hp; subst hp; simp
  | releaseWeak c => simp only [envStep] at hp; split at hp <;> simp at hp
  | _ => simp [envStep] at hp

/-- The `run` events of a step are of values with an owning core. -/
theorem next_runsBound (l : Label W) (hh : ∀ j, Homed s (s.worker j)) :
    RunsBound s (next cfg l s).2 := by
  intro p hp x b he
  cases l with
  | worker i a =>
    obtain ⟨e, he', rfl⟩ := List.mem_map.mp hp
    subst he
    obtain ⟨hpc, hc⟩ := (workerStep_move cfg i a s).run_mem he'
    have h := hh i
    unfold Homed at h
    rw [hpc] at h
    obtain ⟨c, hc', hk⟩ := h
    obtain rfl : x = .cown c := Option.some.inj (hc.symm.trans hc')
    exact hk
  | env e => exact absurd he (envStep_no_run s e hp x b)

/-- **One step of the progress law**: a step adds to core `k`'s counter the
dispatches it records that count on `k`. -/
theorem next_progressCounter (l : Label W) (hh : ∀ j, Homed s (s.worker j)) (k : Fin W) :
    ((next cfg l s).1.core k).progressCounter =
      (s.core k).progressCounter + dispatchesOn (next cfg l s).1 k (next cfg l s).2 := by
  cases l with
  | worker i a =>
    have hb := next_runsBound cfg s (.worker i a) hh
    rw [dispatchesOn_next cfg s _ hb]
    simp only [next, dispatchesOn, List.countP_map]
    exact workerStep_progressCounter cfg i a s k
  | env e =>
    rw [next, dispatchesOn_eq_zero fun p hp x b => envStep_no_run s e hp x b, Nat.add_zero]
    rcases envStep_cores e s with ⟨-, h⟩ | ⟨c, k', -, -, -, h⟩ <;>
      rw [Core.progressCounter_eq_of_unqueued (h k)]
    rw [Function.update_apply]
    split <;> simp_all [releaseWeak]

end Progress

section Runs

variable {cfg : Config W} {Adm : Trace W → Sys W → Label W → Prop} {s₀ : Sys W}

theorem runsBound_reachable {tr : Trace W} {s : Sys W} (hr : Reach cfg Adm s₀ tr s) :
    RunsBound s tr := by
  induction hr with
  | init _ => simp [RunsBound]
  | @step tr s l hr _ _ ih =>
    intro p hp x b he
    have hx : s.owningCore x ≠ none := by
      rcases List.mem_append.mp hp with hp | hp
      exacts [ih p hp x b he, next_runsBound cfg s l (homed_reachable hr) p hp x b he]
    rwa [next_owningCore cfg s l hx]

/-- **The progress counters count dispatches.** Over every run, core `k`'s
`progress_counter` has grown by one for each `cown->run` on thread `k` and by
one for each `cown->run` on another thread of a cown whose owning core is `k`
(lines 234–242). -/
theorem progress_counts_dispatches {tr : Trace W} {s : Sys W} (hr : Reach cfg Adm s₀ tr s)
    (k : Fin W) :
    (s.core k).progressCounter = (s₀.core k).progressCounter + dispatchesOn s k tr := by
  induction hr with
  | init _ => rfl
  | @step tr s l hr _ _ ih =>
    rw [next_progressCounter cfg s l (homed_reachable hr), ih, dispatchesOn_append,
      dispatchesOn_next cfg s l (runsBound_reachable hr), Nat.add_assoc]

/-- Two dispatches, of cowns `5` and `6`, both on core `0`. -/
theorem progress_counts_dispatches_on_swap :
    Reach (Config.ring 0 false false) anyStep swapStart (swapRun 19).1 (swapRun 19).2 ∧
    ((swapRun 19).2.core 0).progressCounter =
      (swapStart.core 0).progressCounter + dispatchesOn (swapRun 19).2 0 (swapRun 19).1 ∧
    dispatchesOn (swapRun 19).2 0 (swapRun 19).1 = 2 :=
  have hr := reach_runSteps _ (fun _ _ _ _ => trivial) (.init swapStart_init)
  ⟨hr, progress_counts_dispatches hr 0, by decide⟩

end Runs

end Verona.Rt
