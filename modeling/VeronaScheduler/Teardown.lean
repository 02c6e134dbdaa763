import VeronaScheduler.Basic
import Mathlib.Algebra.Order.BigOperators.Group.Finset
import Mathlib.Data.Finset.Max

/- The servicing count of a core and the destruction of its queue (lines
   156–170 and 303–337 of `run_inner`).

   A thread servicing a core increments `core->servicing_threads` when it
   starts (line 165). After its scheduling loop it runs teardown phase 1,
   waits in `Scheduler::enter_barrier()`, runs teardown phase 2, and takes
   itself off the count with `fetch_sub(1)` (line 325); the thread that reads
   `1` destroys the core's queue (line 330). Here `n` threads service one core;
   each is at a program point `ServicePc`, a step moves one thread to the
   next and reports what it did, and `enter_barrier()` releases a thread only
   once every thread has reached it. The counter is a `size_t`: `fetch_sub`
   on `0` would wrap (`wrapSub`).

   `teardown_destroys_once`: over every interleaving, every increment precedes
   every `fetch_sub`; at most one thread reads `1`, and once every thread has
   finished exactly one has, and it alone destroys the queue; and the queue is
   destroyed only after every thread has left its loop and finished both
   teardown phases. The proof is the invariant `ServiceInv`: the counter is the
   number of threads between their increment and their `fetch_sub`, a thread
   past the barrier sees every thread at it, and the thread that reads `1` sees
   every other thread released. -/
namespace Verona.Rt

/-- Where a thread is in `run_inner`, as far as the servicing count goes. -/
inductive ServicePc
  /-- Before line 165. -/
  | startup
  /-- The scheduling loop, lines 171–301. -/
  | scheduling
  /-- Teardown phase 1, lines 303–312. -/
  | phase1
  /-- `enter_barrier()`, line 313. -/
  | barrier
  /-- Teardown phase 2, lines 315–321. -/
  | phase2
  /-- Line 325: `fetch_sub(1)`. -/
  | release
  /-- Line 330: `core->q.destroy`. -/
  | destroy
  /-- Past line 331. -/
  | finished
  deriving DecidableEq, Repr

/-- The order of the program points. -/
def ServicePc.rank : ServicePc → Nat
  | .startup => 0
  | .scheduling => 1
  | .phase1 => 2
  | .barrier => 3
  | .phase2 => 4
  | .release => 5
  | .destroy => 6
  | .finished => 7

/-- Whether a thread is counted in `servicing_threads`: between its increment and
its `fetch_sub`. -/
def ServicePc.counted (p : ServicePc) : Nat := if 1 ≤ p.rank ∧ p.rank ≤ 5 then 1 else 0

/-- What a thread reports. -/
inductive ServiceEvent (n : Nat)
  /-- `core->servicing_threads++`, line 165. -/
  | inc (i : Fin n)
  /-- The scheduling loop breaks, line 204. -/
  | leaveLoop (i : Fin n)
  /-- The end of teardown phase 1. -/
  | phase1Done (i : Fin n)
  /-- `enter_barrier()` returns. -/
  | passBarrier (i : Fin n)
  /-- The end of teardown phase 2. -/
  | phase2Done (i : Fin n)
  /-- `fetch_sub(1)` returned `v`. -/
  | fetchSub (i : Fin n) (v : Nat)
  /-- `core->q.destroy`. -/
  | destroy (i : Fin n)
  deriving DecidableEq, Repr

/-- The thread an event belongs to. -/
def ServiceEvent.thread {n : Nat} : ServiceEvent n → Fin n
  | .inc i | .leaveLoop i | .phase1Done i | .passBarrier i | .phase2Done i | .fetchSub i _
  | .destroy i => i

/-- The threads servicing the core and its counter; `val` is each thread's local
`val` of line 325. -/
structure ServiceSys (n : Nat) where
  pc : Fin n → ServicePc
  val : Fin n → Option Nat
  servicingThreads : Nat

variable {n : Nat}

/-- Thread `i` moves to `p`. -/
def ServiceSys.setPc (s : ServiceSys n) (i : Fin n) (p : ServicePc) : ServiceSys n :=
  { s with pc := Function.update s.pc i p }

/-- One step of thread `i`, if it can take one. `enter_barrier()` releases no
thread before every thread has reached it. -/
def serviceStep (s : ServiceSys n) (i : Fin n) : Option (ServiceSys n × ServiceEvent n) :=
  match s.pc i with
  | .startup =>
    some ({ s.setPc i .scheduling with servicingThreads := s.servicingThreads + 1 }, .inc i)
  | .scheduling => some (s.setPc i .phase1, .leaveLoop i)
  | .phase1 => some (s.setPc i .barrier, .phase1Done i)
  | .barrier =>
    if ∀ j, 3 ≤ (s.pc j).rank then some (s.setPc i .phase2, .passBarrier i) else none
  | .phase2 => some (s.setPc i .release, .phase2Done i)
  | .release =>
    let v := s.servicingThreads
    some ({ s.setPc i (if v = 1 then .destroy else .finished) with
      val := Function.update s.val i (some v), servicingThreads := wrapSub v 1 }, .fetchSub i v)
  | .destroy => some (s.setPc i .finished, .destroy i)
  | .finished => none

@[simp] theorem ServiceSys.setPc_pc (s : ServiceSys n) (i : Fin n) (p : ServicePc) :
    (s.setPc i p).pc = Function.update s.pc i p := rfl
@[simp] theorem ServiceSys.setPc_val (s : ServiceSys n) (i : Fin n) (p : ServicePc) :
    (s.setPc i p).val = s.val := rfl
@[simp] theorem ServiceSys.setPc_servicingThreads (s : ServiceSys n) (i : Fin n) (p : ServicePc) :
    (s.setPc i p).servicingThreads = s.servicingThreads := rfl

/-- Modelled from the spec: a core starts with no thread servicing it, and every
thread before its increment. -/
def ServiceSys.start (n : Nat) : ServiceSys n := ⟨fun _ => .startup, fun _ => none, 0⟩

/-- `s` is reached from the start with trace `tr`. -/
inductive ServiceReach : List (ServiceEvent n) → ServiceSys n → Prop
  | init : ServiceReach [] (ServiceSys.start n)
  | step {tr : List (ServiceEvent n)} {s s' : ServiceSys n} {e : ServiceEvent n} (i : Fin n) :
      ServiceReach tr s → serviceStep s i = some (s', e) → ServiceReach (tr ++ [e]) s'

/-- The events thread `i` has reported by the time it is at `p`, `v` being what
its `fetch_sub` returned. -/
def serviceLog (i : Fin n) (p : ServicePc) (v : Option Nat) : List (ServiceEvent n) :=
  [.inc i, .leaveLoop i, .phase1Done i, .passBarrier i, .phase2Done i].take p.rank ++
    match p with
    | .destroy => (v.map (.fetchSub i)).toList
    | .finished => (v.map (.fetchSub i)).toList ++ if v = some 1 then [.destroy i] else []
    | _ => []

/-! ## The invariant -/

/-- What every reachable state satisfies. -/
structure ServiceInv (tr : List (ServiceEvent n)) (s : ServiceSys n) : Prop where
  count : s.servicingThreads = ∑ j, (s.pc j).counted
  barrier : ∀ i, 4 ≤ (s.pc i).rank → ∀ j, 3 ≤ (s.pc j).rank
  val : ∀ j, (s.pc j).rank ≤ 5 ↔ s.val j = none
  destroy : ∀ j, s.pc j = .destroy → s.val j = some 1
  one : ∀ j, s.val j = some 1 → ∀ k, k ≠ j → 6 ≤ (s.pc k).rank ∧ s.val k ≠ some 1
  zero : s.servicingThreads = 0 → (∃ j, 6 ≤ (s.pc j).rank) → ∃ j, s.val j = some 1
  log : ∀ j, tr.filter (·.thread = j) = serviceLog j (s.pc j) (s.val j)

theorem sum_update_pc (f : Fin n → ServicePc) (i : Fin n) (p : ServicePc) (g : ServicePc → Nat) :
    ∑ j, g (Function.update f i p j) + g (f i) = ∑ j, g (f j) + g p := by
  have h₁ := Finset.sum_update_of_mem (Finset.mem_univ i) (fun j => g (f j)) (g p)
  have h₂ := Finset.sum_eq_add_sum_diff_singleton (Finset.mem_univ i) (fun j => g (f j))
  simp only [← Function.apply_update (fun _ => g)] at h₁
  rw [h₁, h₂]; omega

/-- With one thread counted, every other thread is uncounted. -/
theorem counted_eq_zero_of_sum_eq_one {f : Fin n → ServicePc} {i : Fin n}
    (hs : ∑ j, (f j).counted = 1) (hi : (f i).counted = 1) {k : Fin n} (hk : k ≠ i) :
    (f k).counted = 0 := by
  have h := Finset.sum_eq_add_sum_diff_singleton (Finset.mem_univ i) (fun j => (f j).counted)
  have hk' : k ∈ Finset.univ \ {i} := by simp [hk]
  have := Finset.single_le_sum (fun j _ => Nat.zero_le ((f j).counted)) hk'
  omega

theorem serviceInv_start : ServiceInv [] (ServiceSys.start n) where
  count := by simp [ServiceSys.start, ServicePc.counted, ServicePc.rank]
  barrier i h := by simp [ServiceSys.start, ServicePc.rank] at h
  val j := by simp [ServiceSys.start, ServicePc.rank]
  destroy j h := by simp [ServiceSys.start] at h
  one j h := by simp [ServiceSys.start] at h
  zero _ h := by simp [ServiceSys.start, ServicePc.rank] at h
  log j := by simp [ServiceSys.start, serviceLog, ServicePc.rank]

theorem serviceLog_append {tr : List (ServiceEvent n)} {e : ServiceEvent n} (j : Fin n) :
    (tr ++ [e]).filter (·.thread = j) = tr.filter (·.thread = j) ++ if e.thread = j then [e] else [] := by
  rw [List.filter_append]; split_ifs <;> simp_all

/-- Ranks only grow, and only thread `i`'s. -/
theorem rank_setPc_le {s : ServiceSys n} {i : Fin n} {p : ServicePc} (h : (s.pc i).rank ≤ p.rank)
    (j : Fin n) : (s.pc j).rank ≤ ((s.setPc i p).pc j).rank := by
  by_cases hj : j = i
  · subst hj; simpa using h
  · simp [Function.update_noteq hj]

/-- A move of thread `i` alone, one point on, that keeps it counted or uncounted,
is not to the destruction, and passes the barrier only once every thread is at it. -/
theorem serviceInv_move {tr : List (ServiceEvent n)} {s : ServiceSys n} {i : Fin n}
    {p : ServicePc} {e : ServiceEvent n} (hI : ServiceInv tr s)
    (hc : (s.pc i).counted = p.counted) (hr : (s.pc i).rank + 1 = p.rank) (hd : p ≠ .destroy)
    (hb : 4 ≤ p.rank → ∀ j, 3 ≤ (s.pc j).rank) (he : e.thread = i)
    (hlog : serviceLog i p (s.val i) = serviceLog i (s.pc i) (s.val i) ++ [e]) :
    ServiceInv (tr ++ [e]) (s.setPc i p) := by
  have hmono := rank_setPc_le (s := s) (i := i) (p := p) (by omega)
  have h5 : (s.pc i).rank ≤ 5 ↔ p.rank ≤ 5 := by
    unfold ServicePc.counted at hc; split_ifs at hc <;> omega
  refine ⟨?_, fun k hk j => ?_, fun j => ?_, fun j hj => ?_, fun j hj k hk => ?_, fun h0 ⟨j, hj⟩ => ?_,
    fun j => ?_⟩
  · have := sum_update_pc s.pc i p ServicePc.counted
    simp only [ServiceSys.setPc_servicingThreads, ServiceSys.setPc_pc, hI.count]
    omega
  · by_cases hki : k = i
    · subst hki; exact (hb (by simpa using hk) j).trans (hmono j)
    · simp only [ServiceSys.setPc_pc, Function.update_noteq hki] at hk
      exact (hI.barrier k hk j).trans (hmono j)
  · by_cases hji : j = i
    · subst hji; simpa [← h5] using hI.val j
    · simpa [Function.update_noteq hji] using hI.val j
  · by_cases hji : j = i
    · subst hji; simp [hd] at hj
    · exact hI.destroy j (by simpa [Function.update_noteq hji] using hj)
  · exact ⟨(hI.one j hj k hk).1.trans (hmono k), (hI.one j hj k hk).2⟩
  · refine hI.zero h0 ⟨j, ?_⟩
    by_cases hji : j = i
    · subst hji; simp only [ServiceSys.setPc_pc, Function.update_same] at hj; omega
    · simpa [Function.update_noteq hji] using hj
  · rw [serviceLog_append, hI.log]
    by_cases hji : j = i
    · subst hji; simp [he, hlog]
    · simp [he, Ne.symm hji, Function.update_noteq hji]

/-- The increment of line 165. -/
theorem serviceInv_inc {tr : List (ServiceEvent n)} {s : ServiceSys n} {i : Fin n}
    (hI : ServiceInv tr s) (hp : s.pc i = .startup) :
    ServiceInv (tr ++ [.inc i])
      { s.setPc i .scheduling with servicingThreads := s.servicingThreads + 1 } := by
  show ServiceInv _ ⟨Function.update s.pc i .scheduling, s.val, s.servicingThreads + 1⟩
  have hv : s.val i = none := (hI.val i).1 (by simp [hp, ServicePc.rank])
  have hno : ∀ k, ¬ 4 ≤ (s.pc k).rank := fun k hk => by
    have := hI.barrier k hk i; simp [hp, ServicePc.rank] at this
  have hmono := rank_setPc_le (s := s) (i := i) (p := .scheduling) (by simp [hp, ServicePc.rank])
  refine ⟨?_, fun k hk j => ?_, fun j => ?_, fun j hj => ?_, fun j hj k hk => ?_, fun h0 => ?_,
    fun j => ?_⟩
  · have := sum_update_pc s.pc i .scheduling ServicePc.counted
    have h0 : (s.pc i).counted = 0 := by rw [hp]; rfl
    have h1 : ServicePc.scheduling.counted = 1 := rfl
    have hc := hI.count
    show s.servicingThreads + 1 = ∑ j, (Function.update s.pc i .scheduling j).counted
    omega
  · by_cases hki : k = i
    · subst hki; simp [ServicePc.rank] at hk
    · simp only [ServiceSys.setPc_pc, Function.update_noteq hki] at hk; exact absurd hk (hno k)
  · by_cases hji : j = i
    · subst hji; simp [hv, ServicePc.rank]
    · simpa [Function.update_noteq hji] using hI.val j
  · by_cases hji : j = i
    · subst hji; simp at hj
    · exact hI.destroy j (by simpa [Function.update_noteq hji] using hj)
  · have := (hI.one j hj i (fun h => by simp [h ▸ hv] at hj)).1
    simp [hp, ServicePc.rank] at this
  · simp at h0
  · rw [serviceLog_append, hI.log]
    by_cases hji : j = i
    · subst hji; simp [hp, hv, serviceLog, ServicePc.rank, ServiceEvent.thread]
    · simp [ServiceEvent.thread, Ne.symm hji, Function.update_noteq hji]

/-- The `fetch_sub` of line 325. -/
theorem serviceInv_fetch {tr : List (ServiceEvent n)} {s : ServiceSys n} {i : Fin n}
    (hI : ServiceInv tr s) (hp : s.pc i = .release) :
    ServiceInv (tr ++ [.fetchSub i s.servicingThreads])
      { s.setPc i (if s.servicingThreads = 1 then .destroy else .finished) with
        val := Function.update s.val i (some s.servicingThreads),
        servicingThreads := wrapSub s.servicingThreads 1 } := by
  generalize hp' : (if s.servicingThreads = 1 then ServicePc.destroy else .finished) = p
  show ServiceInv _ ⟨Function.update s.pc i p, Function.update s.val i (some s.servicingThreads),
    wrapSub s.servicingThreads 1⟩
  have hval : s.val i = none := (hI.val i).1 (by simp [hp, ServicePc.rank])
  have hall : ∀ j, 3 ≤ (s.pc j).rank := hI.barrier i (by simp [hp, ServicePc.rank])
  have hci : (s.pc i).counted = 1 := by rw [hp]; rfl
  have hcp : p.counted = 0 := by subst hp'; split_ifs <;> rfl
  have hrp : 6 ≤ p.rank := by subst hp'; split_ifs <;> decide
  have hpos : 1 ≤ s.servicingThreads :=
    hI.count ▸ hci ▸ Finset.single_le_sum (f := fun j => (s.pc j).counted) (fun j _ => Nat.zero_le _)
      (Finset.mem_univ i)
  have hsum := sum_update_pc s.pc i p ServicePc.counted
  have hmono := rank_setPc_le (s := s) (i := i) (p := p) (by rw [hp]; exact (by decide : 5 ≤ 6).trans hrp)
  refine ⟨?_, fun k _ j => (hall j).trans (hmono j), fun j => ?_, fun j hj => ?_,
    fun j hj k hk => ?_, fun h0 _ => ⟨i, ?_⟩, fun j => ?_⟩
  · have hc := hI.count
    show wrapSub s.servicingThreads 1 = ∑ j, (Function.update s.pc i p j).counted
    rw [wrapSub_of_le hpos]
    omega
  · by_cases hji : j = i
    · subst hji; simp only [Function.update_same]; simp; omega
    · simpa [Function.update_noteq hji] using hI.val j
  · by_cases hji : j = i
    · subst hji
      simp only [Function.update_same] at hj ⊢
      subst hj
      by_contra h; simp at h; simp [h] at hp'
    · simpa [Function.update_noteq hji] using hI.destroy j (by simpa [Function.update_noteq hji] using hj)
  · by_cases hji : j = i
    · subst hji
      simp only [Function.update_same, Option.some.injEq] at hj
      have hck : (s.pc k).counted = 0 :=
        counted_eq_zero_of_sum_eq_one (by rw [← hI.count]; exact hj) hci hk
      simp only [Function.update_noteq hk]
      refine ⟨?_, fun h1 => ?_⟩
      · have := hall k; unfold ServicePc.counted at hck; split_ifs at hck with h; omega
      · have := (hI.one k h1 j (Ne.symm hk)).1; rw [hp] at this; exact absurd this (by decide)
    · simp only [Function.update_noteq hji] at hj
      have := (hI.one j hj i (Ne.symm hji)).1; rw [hp] at this; exact absurd this (by decide)
  · have h0 : s.servicingThreads - 1 = 0 := wrapSub_of_le hpos ▸ h0
    show Function.update s.val i (some s.servicingThreads) i = some 1
    rw [Function.update_same]
    congr 1; omega
  · rw [serviceLog_append, hI.log]
    by_cases hji : j = i
    · subst hji hp'
      simp only [ServiceEvent.thread, if_true, Function.update_same, hp, hval]
      split_ifs with h1 <;> simp [serviceLog, ServicePc.rank, h1]
    · simp [ServiceEvent.thread, Ne.symm hji, Function.update_noteq hji]

theorem serviceInv_step {tr : List (ServiceEvent n)} {s s' : ServiceSys n} {i : Fin n}
    {e : ServiceEvent n} (hI : ServiceInv tr s) (h : serviceStep s i = some (s', e)) :
    ServiceInv (tr ++ [e]) s' := by
  unfold serviceStep at h
  split at h <;> rename_i hp
  · cases h; exact serviceInv_inc hI hp
  · cases h
    exact serviceInv_move hI (by rw [hp]; rfl) (by rw [hp]; rfl) (by decide) (fun h => absurd h (by decide))
      rfl (by rw [hp]; simp [serviceLog, ServicePc.rank])
  · cases h
    exact serviceInv_move hI (by rw [hp]; rfl) (by rw [hp]; rfl) (by decide) (fun h => absurd h (by decide))
      rfl (by rw [hp]; simp [serviceLog, ServicePc.rank])
  · split_ifs at h with hall
    · cases h
      exact serviceInv_move hI (by rw [hp]; rfl) (by rw [hp]; rfl) (by decide) (fun _ => hall) rfl
        (by rw [hp]; simp [serviceLog, ServicePc.rank])
  · cases h
    exact serviceInv_move hI (by rw [hp]; rfl) (by rw [hp]; rfl) (by decide)
      (fun _ => hI.barrier i (by rw [hp]; decide)) rfl (by rw [hp]; simp [serviceLog, ServicePc.rank])
  · cases h; exact serviceInv_fetch hI hp
  · cases h
    exact serviceInv_move hI (by rw [hp]; rfl) (by rw [hp]; rfl) (by decide)
      (fun _ => hI.barrier i (by rw [hp]; decide)) rfl
      (by rw [hp, hI.destroy i hp]; simp [serviceLog, ServicePc.rank])
  · cases h

theorem serviceInv_reachable {tr : List (ServiceEvent n)} {s : ServiceSys n}
    (hr : ServiceReach tr s) : ServiceInv tr s := by
  induction hr with
  | init => exact serviceInv_start
  | step _ _ h ih => exact serviceInv_step ih h

/-! ## Every run can finish -/

/-- How many steps the threads have still to take, at most. -/
def ServiceSys.remaining (s : ServiceSys n) : Nat := ∑ j, (7 - (s.pc j).rank)

theorem ServicePc.rank_le (p : ServicePc) : p.rank ≤ 7 := by cases p <;> decide

/-- A step moves one thread further on. -/
theorem serviceStep_pc {s s' : ServiceSys n} {i : Fin n} {e : ServiceEvent n}
    (h : serviceStep s i = some (s', e)) :
    ∃ p, s'.pc = Function.update s.pc i p ∧ (s.pc i).rank < p.rank := by
  unfold serviceStep at h
  split at h <;> rename_i hp
  all_goals (try split_ifs at h)
  all_goals cases h
  all_goals first
    | exact ⟨_, rfl, by rw [hp]; decide⟩
    | exact ⟨_, rfl, by rw [hp]; split_ifs <;> decide⟩

/-- Every step lowers `remaining`. -/
theorem serviceStep_remaining {s s' : ServiceSys n} {i : Fin n} {e : ServiceEvent n}
    (h : serviceStep s i = some (s', e)) : s'.remaining < s.remaining := by
  obtain ⟨p, hp, hlt⟩ := serviceStep_pc h
  have := sum_update_pc s.pc i p fun q => 7 - q.rank
  have := p.rank_le
  simp only [ServiceSys.remaining, hp]
  omega

/-- Until every thread has finished, some thread can step: the one furthest
behind, which is at the barrier only when every thread has reached it. -/
theorem serviceStep_progress (s : ServiceSys n) (h : ∃ j, s.pc j ≠ .finished) :
    ∃ i s' e, serviceStep s i = some (s', e) := by
  obtain ⟨j, hj⟩ := h
  obtain ⟨i, -, hmin⟩ := Finset.exists_min_image Finset.univ (fun k => (s.pc k).rank)
    ⟨j, Finset.mem_univ j⟩
  have hall : ∀ k, (s.pc i).rank ≤ (s.pc k).rank := fun k => hmin k (Finset.mem_univ k)
  suffices ∃ s' e, serviceStep s i = some (s', e) from ⟨i, this⟩
  unfold serviceStep
  cases hp : s.pc i
  case barrier => exact ⟨_, _, if_pos fun k => by simpa [hp, ServicePc.rank] using hall k⟩
  case finished =>
    have := hall j
    rw [hp] at this
    cases hq : s.pc j <;> simp_all [ServicePc.rank]
  all_goals exact ⟨_, _, rfl⟩

/-- **Every run extends to one in which every thread has finished.** -/
theorem serviceReach_finishes {tr : List (ServiceEvent n)} {s : ServiceSys n}
    (hr : ServiceReach tr s) :
    ∃ tr' s', ServiceReach (tr ++ tr') s' ∧ ∀ j, s'.pc j = .finished := by
  generalize h : s.remaining = m
  induction m using Nat.strongRecOn generalizing tr s with
  | ind m ih =>
    by_cases hdone : ∀ j, s.pc j = .finished
    · exact ⟨[], s, by simpa using hr, hdone⟩
    · push_neg at hdone
      obtain ⟨i, s', e, hs⟩ := serviceStep_progress s hdone
      obtain ⟨tr', s'', hr', hfin⟩ := ih _ (h ▸ serviceStep_remaining hs) (.step i hr hs) rfl
      exact ⟨e :: tr', s'', by simpa using hr', hfin⟩

/-- The steps of the threads `is`, in order, from `(tr, s)`; `none` as soon as
one of them cannot step. -/
def serviceRun : List (Fin n) → List (ServiceEvent n) × ServiceSys n →
    Option (List (ServiceEvent n) × ServiceSys n)
  | [], p => some p
  | i :: is, (tr, s) =>
    match serviceStep s i with
    | some (s', e) => serviceRun is (tr ++ [e], s')
    | none => none

theorem serviceReach_run : ∀ (is : List (Fin n)) {tr : List (ServiceEvent n)} {s : ServiceSys n}
    (d : List (ServiceEvent n) × ServiceSys n), ServiceReach tr s → (serviceRun is (tr, s)).isSome →
      ServiceReach ((serviceRun is (tr, s)).getD d).1 ((serviceRun is (tr, s)).getD d).2
  | [], _, _, _, hr, _ => hr
  | i :: is, tr, s, d, hr, h => by
    simp only [serviceRun] at h ⊢
    split at h
    next s' e hs => exact serviceReach_run is d (.step i hr hs) h
    next => cases h

/-! ## What the trace records -/

/-- The increment is made at startup, the destruction from line 330. -/
theorem serviceStep_event {s s' : ServiceSys n} {i : Fin n} {e : ServiceEvent n}
    (h : serviceStep s i = some (s', e)) :
    (∀ j, e = .inc j → s.pc j = .startup) ∧ (∀ j, e = .destroy j → s.pc j = .destroy) := by
  unfold serviceStep at h
  split at h <;> rename_i hp
  all_goals (try split_ifs at h)
  all_goals cases h
  all_goals exact ⟨fun j hj => by cases hj <;> exact hp, fun j hj => by cases hj <;> exact hp⟩

theorem ServiceInv.mem {tr : List (ServiceEvent n)} {s : ServiceSys n} (hI : ServiceInv tr s)
    {e : ServiceEvent n} : e ∈ tr ↔ e ∈ serviceLog e.thread (s.pc e.thread) (s.val e.thread) := by
  rw [← hI.log]; simp

theorem mem_serviceLog_phases {i : Fin n} {p : ServicePc} {v : Option Nat} (h : 6 ≤ p.rank) :
    .leaveLoop i ∈ serviceLog i p v ∧ .phase1Done i ∈ serviceLog i p v ∧
      .phase2Done i ∈ serviceLog i p v := by
  cases p <;> simp [ServicePc.rank] at h <;> simp [serviceLog, ServicePc.rank]

theorem mem_serviceLog_fetchSub {i : Fin n} {p : ServicePc} {w : Option Nat} {v : Nat} :
    .fetchSub i v ∈ serviceLog i p w ↔ 6 ≤ p.rank ∧ w = some v := by
  cases p <;> rcases w with _ | w <;> simp [serviceLog, ServicePc.rank, eq_comm]

theorem mem_serviceLog_destroy {i : Fin n} {p : ServicePc} {w : Option Nat} :
    .destroy i ∈ serviceLog i p w ↔ p = .finished ∧ w = some 1 := by
  cases p <;> rcases w with _ | w <;> simp [serviceLog, ServicePc.rank]

/-- No increment follows a `fetch_sub`. -/
theorem inc_before_fetchSub {tr : List (ServiceEvent n)} {s : ServiceSys n}
    (hr : ServiceReach tr s) :
    ∀ (k₁ k₂ : Nat) (i j : Fin n) (v : Nat), tr[k₁]? = some (ServiceEvent.fetchSub i v) → tr[k₂]? = some (ServiceEvent.inc j) →
      k₂ < k₁ := by
  induction hr with
  | init => simp
  | @step tr s s' e i hr h ih =>
    intro k₁ k₂ i j v h₁ h₂
    have hI := serviceInv_reachable hr
    have hlast : ∀ k x, (tr ++ [e])[k]? = some x → k < tr.length ∧ tr[k]? = some x ∨
        k = tr.length ∧ e = x := fun k x hk => by
      rcases Nat.lt_or_ge k tr.length with hk' | hk'
      · exact .inl ⟨hk', by rwa [List.getElem?_append_left hk'] at hk⟩
      · rw [List.getElem?_append_right hk'] at hk
        rcases Nat.eq_zero_or_pos (k - tr.length) with h0 | h0
        · rw [h0, List.getElem?_cons_zero, Option.some.injEq] at hk
          exact .inr ⟨by omega, hk⟩
        · have : [e][k - tr.length]? = none := List.getElem?_eq_none (by simp; omega)
          rw [this] at hk; cases hk
    rcases hlast k₁ _ h₁ with ⟨hk₁, h₁⟩ | ⟨rfl, rfl⟩ <;> rcases hlast k₂ _ h₂ with ⟨hk₂, h₂⟩ | ⟨rfl, he⟩
    · exact ih k₁ k₂ i j v h₁ h₂
    · have hf := hI.mem.1 (List.getElem?_mem h₁)
      rw [ServiceEvent.thread, mem_serviceLog_fetchSub] at hf
      have := hI.barrier i (by omega) j
      rw [(serviceStep_event h).1 j he] at this
      exact absurd this (by decide)
    · exact hk₂
    · cases he

/-- The queue is destroyed after every thread has left its loop and finished
both teardown phases. -/
theorem destroy_after_phases {tr : List (ServiceEvent n)} {s : ServiceSys n}
    (hr : ServiceReach tr s) :
    ∀ pre post i, tr = pre ++ .destroy i :: post →
      ∀ j, .leaveLoop j ∈ pre ∧ .phase1Done j ∈ pre ∧ .phase2Done j ∈ pre := by
  induction hr with
  | init => simp
  | @step tr s s' e i' hr h ih =>
    intro pre post i htr j
    rcases List.eq_nil_or_concat post with rfl | ⟨L, b, rfl⟩
    · obtain ⟨rfl, he⟩ := List.append_inj' htr rfl
      have hI := serviceInv_reachable hr
      have hp := (serviceStep_event h).2 i (List.singleton_inj.1 he)
      have hr6 : 6 ≤ (s.pc j).rank := by
        by_cases hji : j = i
        · subst hji; rw [hp]; decide
        · exact (hI.one i (hI.destroy i hp) j hji).1
      obtain ⟨h₁, h₂, h₃⟩ := mem_serviceLog_phases (i := j) (v := s.val j) hr6
      exact ⟨hI.mem.2 h₁, hI.mem.2 h₂, hI.mem.2 h₃⟩
    · have : tr ++ [e] = (pre ++ .destroy i :: L) ++ [b] := by rw [htr]; simp
      exact ih pre L i (List.append_inj' this rfl).1 j

/-- **The last thread destroys the queue, once** (lines 156–170, 303–337). With
`n` threads servicing a core and `enter_barrier()` releasing none before all
have reached it, over every interleaving: every `servicing_threads++` precedes
every `fetch_sub`; at most one thread reads `1`, and only it destroys the
queue; the run can always be carried on until every thread has finished, and
once every thread has finished, one has read `1` and destroyed the queue and no
other has; and the destruction comes after every thread has left its
scheduling loop and finished both teardown phases. -/
theorem teardown_destroys_once {tr : List (ServiceEvent n)} {s : ServiceSys n}
    (hr : ServiceReach tr s) :
    (∀ (k₁ k₂ : Nat) (i j : Fin n) (v : Nat), tr[k₁]? = some (ServiceEvent.fetchSub i v) →
      tr[k₂]? = some (ServiceEvent.inc j) → k₂ < k₁) ∧
    (∀ i j, .fetchSub i 1 ∈ tr → .fetchSub j 1 ∈ tr → i = j) ∧
    (∀ i, .destroy i ∈ tr → .fetchSub i 1 ∈ tr) ∧
    (∃ tr' s', ServiceReach (tr ++ tr') s' ∧ ∀ j, s'.pc j = .finished) ∧
    (0 < n → (∀ j, s.pc j = .finished) → ∃ i, .fetchSub i 1 ∈ tr ∧ ∀ j, .destroy j ∈ tr ↔ j = i) ∧
    ∀ pre post i, tr = pre ++ .destroy i :: post →
      ∀ j, .leaveLoop j ∈ pre ∧ .phase1Done j ∈ pre ∧ .phase2Done j ∈ pre := by
  have hI := serviceInv_reachable hr
  have hone : ∀ i j, s.val i = some 1 → s.val j = some 1 → i = j := fun i j hi hj => by
    by_contra h; exact (hI.one i hi j (Ne.symm h)).2 hj
  refine ⟨inc_before_fetchSub hr, fun i j hi hj => ?_, fun i hi => ?_, serviceReach_finishes hr,
    fun hn hall => ?_, destroy_after_phases hr⟩
  · rw [hI.mem, ServiceEvent.thread, mem_serviceLog_fetchSub] at hi hj
    exact hone i j hi.2 hj.2
  · rw [hI.mem, ServiceEvent.thread, mem_serviceLog_destroy] at hi
    rw [hI.mem, ServiceEvent.thread, mem_serviceLog_fetchSub, hi.1]
    exact ⟨by decide, hi.2⟩
  · have h0 : s.servicingThreads = 0 := by
      rw [hI.count]; exact Finset.sum_eq_zero fun j _ => by rw [hall j]; rfl
    obtain ⟨i, hi⟩ := hI.zero h0 ⟨⟨0, hn⟩, by rw [hall]; decide⟩
    refine ⟨i, ?_, fun j => ?_⟩
    · rw [hI.mem, ServiceEvent.thread, mem_serviceLog_fetchSub, hall]; exact ⟨by decide, hi⟩
    · rw [hI.mem, ServiceEvent.thread, mem_serviceLog_destroy]
      exact ⟨fun h => hone j i h.2 hi, fun h => h ▸ ⟨hall i, hi⟩⟩

/-- Two threads, interleaved step for step: thread 0's `fetch_sub` reads `2`,
thread 1's reads `1`, and thread 1 destroys the queue. -/
def serviceDone : List (ServiceEvent 2) × ServiceSys 2 :=
  (serviceRun [0, 1, 0, 1, 0, 1, 0, 1, 0, 1, 0, 1, 1] ([], ServiceSys.start 2)).getD
    ([], ServiceSys.start 2)

/-- The run `serviceDone` ends with both threads finished, after one `fetch_sub`
that read `1` and one destruction, by thread 1. -/
theorem teardown_destroys_once_on_two :
    ServiceReach serviceDone.1 serviceDone.2 ∧ (∀ j, serviceDone.2.pc j = .finished) ∧
    .fetchSub 1 1 ∈ serviceDone.1 ∧ .fetchSub 0 2 ∈ serviceDone.1 ∧ .destroy 1 ∈ serviceDone.1 ∧
    (∀ (k₁ k₂ : Nat) (i j : Fin 2) (v : Nat), serviceDone.1[k₁]? = some (ServiceEvent.fetchSub i v) →
      serviceDone.1[k₂]? = some (ServiceEvent.inc j) → k₂ < k₁) ∧
    (∀ i j, .fetchSub i 1 ∈ serviceDone.1 → .fetchSub j 1 ∈ serviceDone.1 → i = j) ∧
    (∀ i, .destroy i ∈ serviceDone.1 → .fetchSub i 1 ∈ serviceDone.1) ∧
    (∃ tr' s', ServiceReach (serviceDone.1 ++ tr') s' ∧ ∀ j, s'.pc j = .finished) ∧
    (0 < 2 → (∀ j, serviceDone.2.pc j = .finished) →
      ∃ i, .fetchSub i 1 ∈ serviceDone.1 ∧ ∀ j, .destroy j ∈ serviceDone.1 ↔ j = i) ∧
    ∀ pre post i, serviceDone.1 = pre ++ .destroy i :: post →
      ∀ j, .leaveLoop j ∈ pre ∧ .phase1Done j ∈ pre ∧ .phase2Done j ∈ pre :=
  have hr : ServiceReach serviceDone.1 serviceDone.2 := serviceReach_run _ _ .init (by decide)
  ⟨hr, by decide, by decide, by decide, by decide, teardown_destroys_once hr⟩

end Verona.Rt
