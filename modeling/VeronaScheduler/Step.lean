import VeronaScheduler.Worker

/- The whole system: all threads interleaved with the environment.

   A step is a step of one thread (`workerStep`, with the environment's
   `Answer`), or one of the environment's own actions: a behaviour running
   somewhere makes a cown runnable (`schedule_fifo` on a thread,
   `schedule_lifo` on a core), the pool stops a thread, asks it for a leak
   detection (`want_ld`), or a cown changes its epoch fields or loses its last
   weak reference. `Reach cfg Adm s₀ tr s` says that `s` is reached from the
   initial state `s₀` with trace `tr`, every step enabled and admitted by `Adm`;
   a result that assumes something of the environment (what `next_state` or
   `nothing_old()` may answer) says so through `Adm`.

   Every cown lives in the union of the core queues and the threads' hands
   (`Sys.union`); a cown is made runnable from outside only when it is in
   neither. -/
namespace Verona.Rt

variable {W : Nat}

/-- The value a thread holds in flight between two queue operations. -/
def Pc.inflight : Pc W → Option (Item W)
  | .swap n => some n
  | _ => none

/-- What thread `w` holds: its slot and its value in flight. -/
def Worker.held (w : Worker W) : Multiset (Item W) :=
  (w.cown.toList : Multiset (Item W)) + (w.pc.inflight.toList : Multiset (Item W))

/-- Every queued and every held value, with multiplicity. -/
def Sys.union (s : Sys W) : Multiset (Item W) :=
  ∑ k, ((s.core k).q : Multiset (Item W)) + ∑ i, (s.worker i).held

/-- The environment's actions. -/
inductive EnvAction (W : Nat)
  /-- A behaviour on thread `i` makes `c` runnable: `schedule_fifo(c)` on `i`. -/
  | scheduleFifo (i : Fin W) (c : CownId)
  /-- An external source makes `c` runnable on core `k`: `schedule_lifo(k, c)`. -/
  | scheduleLifo (k : Fin W) (c : CownId)
  /-- `stop()` on thread `i`. -/
  | stop (i : Fin W)
  /-- `want_ld()` on thread `i`. -/
  | wantLd (i : Fin W)
  /-- Cown `c` marks itself. -/
  | setEpochMark (c : CownId) (e : EpochMark)
  /-- Cown `c` records the epoch it was popped in. -/
  | setEpochWhenPopped (c : CownId) (e : Option Nat)
  /-- Cown `c` loses its last weak reference. -/
  | releaseWeak (c : CownId)

/-- A step of the system. -/
inductive Label (W : Nat)
  | worker (i : Fin W) (a : Answer)
  | env (e : EnvAction W)

/-- What the system did, each event with the thread it belongs to. -/
abbrev Trace (W : Nat) := List (Fin W × Event W)

/-- Thread `i`'s own events in `tr`, in order. -/
def threadEvents (i : Fin W) (tr : Trace W) : List (Event W) :=
  tr.filterMap fun p => if p.1 = i then some p.2 else none

@[simp] theorem threadEvents_nil (i : Fin W) : threadEvents i [] = [] := rfl

@[simp] theorem threadEvents_append (i : Fin W) (tr tr' : Trace W) :
    threadEvents i (tr ++ tr') = threadEvents i tr ++ threadEvents i tr' :=
  List.filterMap_append _ _ _

@[simp] theorem threadEvents_map (i j : Fin W) (es : List (Event W)) :
    threadEvents i (es.map (j, ·)) = if j = i then es else [] := by
  induction es with
  | nil => split <;> rfl
  | cons e es ih =>
    simp only [threadEvents, List.map_cons, List.filterMap_cons] at ih ⊢
    split <;> simp_all

theorem mem_threadEvents {i : Fin W} {tr : Trace W} {e : Event W} :
    e ∈ threadEvents i tr ↔ (i, e) ∈ tr := by
  simp only [threadEvents, List.mem_filterMap, Option.ite_none_right_eq_some, Option.some.injEq]
  exact ⟨fun ⟨p, hp, hi, he⟩ => hi ▸ he ▸ hp, fun h => ⟨_, h, rfl, rfl⟩⟩

/-- An environment action. -/
def envStep : EnvAction W → Sys W → Sys W × Trace W
  | .scheduleFifo i c, s =>
    let r := scheduleFifo i (.cown c) s
    (r.1, r.2.map (i, ·))
  | .scheduleLifo k c, s => (s.enqueueFront k (.cown c), [(k, .enqueueFront k (.cown c))])
  | .stop i, s => (s.setWorker i { s.worker i with running := false }, [])
  | .wantLd i, s => (s.setWorker i (s.worker i).wantLd, [])
  | .setEpochMark c e, s =>
    (s.setCownOf (Function.update s.cownOf c { s.cownOf c with epochMark := e }), [])
  | .setEpochWhenPopped c e, s =>
    (s.setCownOf (Function.update s.cownOf c { s.cownOf c with epochWhenPopped := e }), [])
  | .releaseWeak c, s =>
    match (s.cownOf c).owningCore with
    | some k =>
      let h := releaseWeak s.cownOf (s.core k) c
      ((s.setCore k h.2).setCownOf h.1, [])
    | none => (s, [])

/-- One step of the system. -/
def next (cfg : Config W) : Label W → Sys W → Sys W × Trace W
  | .worker i a, s =>
    let r := workerStep cfg i a s
    (r.1, r.2.map (i, ·))
  | .env e, s => envStep e s

/-- When a step may be taken: a cown is made runnable only if no queue and no
thread has it, and only a registered cown with a weak reference can lose its
last one. -/
def Enabled : Label W → Sys W → Prop
  | .env (.scheduleFifo _ c), s => Item.cown c ∉ s.union
  | .env (.scheduleLifo _ c), s => Item.cown c ∉ s.union
  | .env (.releaseWeak c), s =>
    0 < (s.cownOf c).weakCount ∧ ∃ k, (s.cownOf c).owningCore = some k ∧ c ∈ (s.core k).cowns
  | _, _ => True

instance instDecidableEnabled : (l : Label W) → (s : Sys W) → Decidable (Enabled l s)
  | .env (.scheduleFifo _ c), s => inferInstanceAs (Decidable (Item.cown c ∉ s.union))
  | .env (.scheduleLifo _ c), s => inferInstanceAs (Decidable (Item.cown c ∉ s.union))
  | .env (.releaseWeak c), s => inferInstanceAs (Decidable
      (0 < (s.cownOf c).weakCount ∧ ∃ k, (s.cownOf c).owningCore = some k ∧ c ∈ (s.core k).cowns))
  | .env (.stop _), _ | .env (.wantLd _), _ | .env (.setEpochMark _ _), _
  | .env (.setEpochWhenPopped _ _), _ | .worker _ _, _ => isTrue trivial

/-- A thread as `run_inner` leaves it at the head of its loop the first time
(lines 158–166): `victim = core->next`, the epochs and LD state at their
defaults. -/
def initWorker (cfg : Config W) (i : Fin W) : Worker W :=
  { victim := cfg.next i, running := true, nLdTokens := 0, shouldStealForFairness := false,
    scheduledUnscannedCown := false, sendEpoch := .epochA, prevEpoch := .epochB,
    state := .notInLD, cown := none, pc := .top }

/-- An initial state: every thread at the head of its loop, counted in its
core's `servicing_threads` (line 165); the queues hold any values, none twice,
and a token only on its own core. -/
structure Init (cfg : Config W) (s : Sys W) : Prop where
  worker : ∀ i, s.worker i = initWorker cfg i
  nodup : s.union.Nodup
  tokenHome : ∀ k j, Item.token k ∈ (s.core j).q → j = k
  serviced : ∀ k, (s.core k).servicingThreads = 1

/-- `s` is reached from `s₀` with trace `tr`, every step admitted by `Adm`. -/
inductive Reach (cfg : Config W) (Adm : Trace W → Sys W → Label W → Prop) (s₀ : Sys W) :
    Trace W → Sys W → Prop
  | init : Init cfg s₀ → Reach cfg Adm s₀ [] s₀
  | step {tr : Trace W} {s : Sys W} (l : Label W) : Reach cfg Adm s₀ tr s → Enabled l s →
      Adm tr s l → Reach cfg Adm s₀ (tr ++ (next cfg l s).2) (next cfg l s).1

/-- The admission that admits every step. -/
def anyStep : Trace W → Sys W → Label W → Prop := fun _ _ _ => True

/-- The steps `ls` of threads, each with its answers, from `(tr, s)`. -/
def runSteps (cfg : Config W) : List (Fin W × Answer) → Trace W × Sys W → Trace W × Sys W
  | [], p => p
  | (i, a) :: ls, (tr, s) =>
    runSteps cfg ls (tr ++ (next cfg (.worker i a) s).2, (next cfg (.worker i a) s).1)

theorem reach_runSteps {cfg : Config W} {Adm : Trace W → Sys W → Label W → Prop} {s₀ : Sys W} :
    ∀ (ls : List (Fin W × Answer)), (∀ p ∈ ls, ∀ tr s, Adm tr s (.worker p.1 p.2)) →
      ∀ {tr : Trace W} {s : Sys W}, Reach cfg Adm s₀ tr s →
      Reach cfg Adm s₀ (runSteps cfg ls (tr, s)).1 (runSteps cfg ls (tr, s)).2
  | [], _, _, _, h => h
  | (i, a) :: ls, ha, _, _, h =>
    reach_runSteps ls (fun p hp => ha p (List.mem_cons_of_mem _ hp))
      (.step _ h trivial (ha (i, a) (List.mem_cons_self _ _) _ _))

/-- `next_state` answers `ns`; `nothing_old()`, `no_inflight_messages()`,
`should_scan()` and `run` answer false. -/
def answering (ns : ThreadState) : Answer := ⟨false, false, ns, false, false, fun _ => false⟩

/-- The ring of `n + 1` cores in index order: `next k = k + 1`. -/
def Config.ring (n : Nat) (fair detectLeaks : Bool) : Config (n + 1) :=
  ⟨fun k => k + 1, fair, detectLeaks⟩

/-- A start: each core's queue holds its own token (`core->token_cown`) and
nothing else, no cown is registered anywhere, and every thread is at the head
of its loop. -/
def Sys.start (cfg : Config W) : Sys W where
  core k := ⟨[.token k], [], 0, 0, 0, 0, 1⟩
  worker := initWorker cfg
  cownOf _ := ⟨none, .epochA, 0, none⟩

/-! ## Updates of the system -/

namespace Sys

variable (s : Sys W) (i j k : Fin W) (w : Worker W) (c : Core W)

@[simp] theorem setWorker_worker : (s.setWorker i w).worker = Function.update s.worker i w := rfl
@[simp] theorem setWorker_core : (s.setWorker i w).core = s.core := rfl
@[simp] theorem setWorker_cownOf : (s.setWorker i w).cownOf = s.cownOf := rfl
@[simp] theorem setCore_core : (s.setCore k c).core = Function.update s.core k c := rfl
@[simp] theorem setCore_worker : (s.setCore k c).worker = s.worker := rfl
@[simp] theorem setCore_cownOf : (s.setCore k c).cownOf = s.cownOf := rfl

@[simp] theorem setCownOf_core (f : CownId → CownRec W) : (s.setCownOf f).core = s.core := rfl
@[simp] theorem setCownOf_worker (f : CownId → CownRec W) : (s.setCownOf f).worker = s.worker := rfl
@[simp] theorem setCownOf_cownOf (f : CownId → CownRec W) : (s.setCownOf f).cownOf = f := rfl

@[simp] theorem setQ_worker (q : List (Item W)) : (s.setQ k q).worker = s.worker := rfl
@[simp] theorem setQ_cownOf (q : List (Item W)) : (s.setQ k q).cownOf = s.cownOf := rfl
@[simp] theorem setQ_core (q : List (Item W)) :
    (s.setQ k q).core = Function.update s.core k { s.core k with q } := rfl

@[simp] theorem enqueue_worker (x : Item W) : (s.enqueue k x).worker = s.worker := rfl
@[simp] theorem enqueue_cownOf (x : Item W) : (s.enqueue k x).cownOf = s.cownOf := rfl
@[simp] theorem enqueueFront_worker (x : Item W) : (s.enqueueFront k x).worker = s.worker := rfl
@[simp] theorem enqueueFront_cownOf (x : Item W) : (s.enqueueFront k x).cownOf = s.cownOf := rfl
@[simp] theorem bumpProgress_worker : (s.bumpProgress k).worker = s.worker := rfl
@[simp] theorem bumpProgress_cownOf : (s.bumpProgress k).cownOf = s.cownOf := rfl

@[simp] theorem setWorker_setWorker (w' : Worker W) :
    (s.setWorker i w).setWorker i w' = s.setWorker i w' := by
  simp [setWorker]

@[simp] theorem setWorker_self : s.setWorker i (s.worker i) = s := by
  simp [setWorker]

/-- The queue and registry updates touch no thread. -/
theorem setQ_setWorker (q : List (Item W)) : (s.setWorker i w).setQ k q = (s.setQ k q).setWorker i w :=
  rfl

theorem enqueue_setWorker (x : Item W) : (s.setWorker i w).enqueue k x = (s.enqueue k x).setWorker i w :=
  rfl

end Sys

section Helpers

variable (i : Fin W) (s : Sys W) (x : Item W)

@[simp] theorem countDispatch_worker : (countDispatch i s x).worker = s.worker := by
  unfold countDispatch; dsimp only; split <;> split <;> rfl

@[simp] theorem countDispatch_cownOf : (countDispatch i s x).cownOf = s.cownOf := by
  unfold countDispatch; dsimp only; split <;> split <;> rfl

end Helpers

theorem start_init (cfg : Config W) : Init cfg (Sys.start cfg) where
  worker _ := rfl
  nodup := by
    have h : ∑ k : Fin W, ({Item.token k} : Multiset (Item W)) = Finset.univ.val.map .token :=
      calc _ = ((Finset.univ.val.map Item.token).map fun a => {a}).sum := by
              rw [Multiset.map_map]; rfl
        _ = _ := Multiset.sum_map_singleton _
    simpa [Sys.union, Sys.start, initWorker, Worker.held, Pc.inflight, h] using
      Finset.univ.nodup.map fun _ _ => Item.token.inj
  tokenHome k j h := by simp [Sys.start] at h; exact h.symm
  serviced _ := rfl

end Verona.Rt
