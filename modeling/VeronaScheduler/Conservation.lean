import VeronaScheduler.Frame
import Mathlib.Algebra.BigOperators.Ring
import Mathlib.Algebra.Order.BigOperators.Group.Finset

/- Conservation of cowns and tokens (lines 171–301, 340–442, 462–509).

   Every value is in a core queue or held by a thread: in its slot (the local
   `cown` of `run_inner`) or in flight at `Pc.swap`; `Sys.union` collects them
   all. This file proves, over every interleaving:

   * each step's queue operation is the one its events report
     (`workerStep_queue`, `envStep_queue`), a dequeue takes the head, and only
     cowns and a core's own token are ever enqueued on it;
   * the slot holds a value exactly where the code needs one, and a cown, not a
     token, from line 213 to the end of the iteration (`SlotShape`);
   * the accounting law: what a step adds to `Sys.union` is what
     `schedule_fifo`/`schedule_lifo` brought from outside, and what it removes is
     what a `run` that returned false dropped (`next_count`);
   * hence no value is ever queued or held twice, each token stays where it
     started, on its own core's queue or in a hand, and `run` and
     `schedule_fifo` only ever see cowns (`conservation`). -/
namespace Verona.Rt

variable {W : Nat}

/-! ## Counting what is queued and held -/

theorem sum_update_int {β : Type} (f : Fin W → β) (i : Fin W) (b : β) (g : β → ℤ) :
    ∑ j, g (Function.update f i b j) = ∑ j, g (f j) - g (f i) + g b := by
  have h₁ := Finset.sum_update_of_mem (Finset.mem_univ i) (fun j => g (f j)) (g b)
  have h₂ := Finset.sum_eq_add_sum_diff_singleton (Finset.mem_univ i) (fun j => g (f j))
  simp only [← Function.apply_update (fun _ => g)] at h₁
  rw [h₁, h₂]; omega

namespace Sys

/-- How many times `x` is queued or held. -/
def count (s : Sys W) (x : Item W) : Nat := s.union.count x

variable (s : Sys W) (x : Item W)

theorem count_eq : (s.count x : ℤ) =
    ∑ k, ((s.core k).q.count x : ℤ) + ∑ i, ((s.worker i).held.count x : ℤ) := by
  simp [count, union, Multiset.count_sum']

@[simp] theorem count_setWorker (i : Fin W) (w : Worker W) :
    ((s.setWorker i w).count x : ℤ) = s.count x - (s.worker i).held.count x + w.held.count x := by
  rw [count_eq, count_eq]
  simp only [setWorker_core, setWorker_worker,
    sum_update_int s.worker i w (fun w => (w.held.count x : ℤ))]
  omega

@[simp] theorem count_setCore (k : Fin W) (c : Core W) :
    ((s.setCore k c).count x : ℤ) = s.count x - (s.core k).q.count x + c.q.count x := by
  rw [count_eq, count_eq]
  simp only [setCore_core, setCore_worker, sum_update_int s.core k c (fun c => (c.q.count x : ℤ))]
  omega

@[simp] theorem count_setCownOf (f : CownId → CownRec W) : (s.setCownOf f).count x = s.count x :=
  rfl

theorem count_setCore_of_q {k : Fin W} {c : Core W} (h : c.q = (s.core k).q) :
    (s.setCore k c).count x = s.count x := by
  have := count_setCore s x k c
  rw [h] at this; omega

/-- The count reads only the queues and the threads. -/
theorem count_congr {s' : Sys W} (hq : ∀ k, (s'.core k).q = (s.core k).q)
    (hw : s'.worker = s.worker) : s'.count x = s.count x := by
  have := count_eq s' x
  rw [hw, Finset.sum_congr rfl fun k _ => congrArg (fun q => (q.count x : ℤ)) (hq k),
    ← count_eq] at this
  omega

end Sys

theorem count_cons_eq (a b : Item W) (l : List (Item W)) :
    List.count a (b :: l) = List.count a l + if a = b then 1 else 0 := by
  rw [List.count_cons]
  by_cases h : a = b
  · simp [h]
  · simp [h, Ne.symm h]

@[simp] theorem count_countDispatch (i : Fin W) (s : Sys W) (x y : Item W) :
    (countDispatch i s x).count y = s.count y :=
  Sys.count_congr s y (countDispatch_q i s x) (countDispatch_worker i s x)

@[simp] theorem inflight_resume (r : LdCaller) : (LdCaller.resume r : Pc W).inflight = none := by
  cases r <;> rfl

/-! ## The slot -/

/-- Where the slot is empty, where it holds a value, and where that value is a
cown: empty in `steal` and from the end of the loop on; set from `prerun` on;
a cown from line 213 to the end of the iteration. -/
def SlotShape (w : Worker W) : Prop :=
  match w.pc with
  | .steal | .ldEntry .steal | .ldLoop .steal | .stealLocal | .stealVictim | .exit | .barrier
  | .phase2 | .release | .destroy | .finished => w.cown = none
  | .prerun => w.cown ≠ none
  | .scanHint | .ldEntry .runInner | .ldLoop .runInner | .dispatch | .reschedule | .swap _
  | .queueEmpty | .fairSteal => ∃ x, w.cown = some x ∧ x.hasThreadBit = false
  | .top | .fairness | .popLocal => True

section Move

variable {cfg : Config W} {i : Fin W} {a : Answer} {s : Sys W} {w : Worker W} {s' : Sys W}
  {es : List (Event W)}

theorem Move.slotShape (hm : Move cfg i a s w s' es) (h : SlotShape w) :
    SlotShape (s'.worker i) := by
  unfold SlotShape at h
  cases hm
  case release => split <;> simp_all [SlotShape]
  all_goals (try cases ‹LdCaller›) <;> simp_all [SlotShape, LdCaller.resume, Item.hasThreadBit,
    Worker.ldStateChange, Worker.enterScan, Worker.enterPrescan]

end Move

/-! ## Queue operations -/

/-- What an event does to core `j`'s queue. -/
def Event.onQueue (j : Fin W) : Event W → List (Item W) → List (Item W)
  | .dequeue k _, q => if j = k then q.tail else q
  | .enqueue k x, q => if j = k then q ++ [x] else q
  | .enqueueFront k x, q => if j = k then x :: q else q
  | _, q => q

/-- The events that are queue operations. -/
def Event.isQueueOp : Event W → Bool
  | .dequeue .. | .enqueue .. | .enqueueFront .. => true
  | _ => false

/-- Core `j`'s queue after the queue operations reported in `es`. -/
def queueAfter (j : Fin W) (es : List (Event W)) (q : List (Item W)) : List (Item W) :=
  es.foldl (fun q e => e.onQueue j q) q

@[simp] theorem Core.q_update (f : Fin W → Core W) {k : Fin W} {c : Core W} (h : c.q = (f k).q)
    (j : Fin W) : (Function.update f k c j).q = (f j).q :=
  update_field f _ h j

section Move

variable {cfg : Config W} {i : Fin W} {a : Answer} {s : Sys W} {w : Worker W} {s' : Sys W}
  {es : List (Event W)}

/-- A move changes the queues exactly by the operations it reports. -/
theorem Move.queue (hm : Move cfg i a s w s' es) (j : Fin W) :
    (s'.core j).q = queueAfter j es (s.core j).q := by
  cases hm
  case collectStubs | phase2 => split <;> simp [queueAfter, Event.onQueue]
  all_goals simp only [queueAfter, Event.onQueue, List.foldl, Sys.setWorker_core, Sys.setQ_core,
    Sys.enqueue_core, Sys.setCownOf_core, Sys.setCore_core, countDispatch_q, Function.update_apply,
    Worker.enterScan, Worker.enterPrescan, List.cons_append, List.nil_append, List.foldl_cons,
    List.foldl_nil]
  all_goals split_ifs <;> simp_all

end Move

/-- The thread bit of what an event carries: a queue gets cowns and, at the
tail, its own core's token; `run` and `schedule_fifo` get only cowns. -/
def Event.WellTagged : Event W → Prop
  | .enqueue k x => x = .token k ∨ x.hasThreadBit = false
  | .enqueueFront _ x | .run x _ | .scheduleFifo x _ => x.hasThreadBit = false
  | _ => True

section Move

variable {cfg : Config W} {i : Fin W} {a : Answer} {s : Sys W} {w : Worker W} {s' : Sys W}
  {es : List (Event W)}

/-- What a move reports: at most one queue operation, a dequeue taking the head
of the queue; `run` called on the slot, at line 246; and every value tagged as
the code expects. -/
theorem Move.events (hm : Move cfg i a s w s' es) (h : SlotShape w) :
    (es.filter Event.isQueueOp).length ≤ 1 ∧
    (∀ k x, .dequeue k x ∈ es → (s.core k).q.head? = some x) ∧
    (∀ x b, .run x b ∈ es → w.pc = .dispatch ∧ w.cown = some x) ∧
    ∀ e ∈ es, e.WellTagged := by
  unfold SlotShape at h
  cases hm
  case collectStubs | phase2 => split <;> simp [Event.WellTagged, Event.isQueueOp]
  all_goals (try cases ‹LdCaller›) <;> simp_all [Worker.enterScan, Worker.enterPrescan,
    Event.WellTagged, Event.isQueueOp]

end Move

/-! ## The accounting law -/

/-- The value an event drops: a `run` that returned false drops its cown, and
teardown phase 1 releases what it dequeues. -/
def Event.dropped : Event W → Option (Item W)
  | .run x false | .collected x => some x
  | _ => none

/-- The value an environment action makes runnable. -/
def EnvAction.added : EnvAction W → Option (Item W)
  | .scheduleFifo _ c | .scheduleLifo _ c => some (.cown c)
  | _ => none

/-- The value a step makes runnable from outside. -/
def Label.added : Label W → Option (Item W)
  | .worker _ _ => none
  | .env e => e.added

/-- A move moves values between queues and hands; only a `run` that returned
false and teardown phase 1 drop one. -/
theorem Move.count {cfg : Config W} {i : Fin W} {a : Answer} {s s' : Sys W} {es : List (Event W)}
    (hm : Move cfg i a s (s.worker i) s' es) (h : SlotShape (s.worker i)) (x : Item W) :
    (s'.count x : ℤ) + (es.filterMap Event.dropped).count x = s.count x := by
  unfold SlotShape at h
  cases hm
  case release hpc => split <;> simp [Worker.held, Pc.inflight, hpc, Event.dropped]
  case collectStubs | phase2 => split <;> simp_all [Worker.held, Pc.inflight, Event.dropped]
  all_goals simp_all [count_cons_eq, Multiset.count_singleton, Multiset.count_cons, Sys.enqueue,
    Sys.setQ, Worker.held, Pc.inflight.eq_1, Pc.inflight.eq_2, Event.dropped, Worker.enterScan,
    Worker.enterPrescan, Worker.ldStateChange, Worker.decNLdTokens]
  all_goals omega

/-- An environment action adds only what it makes runnable. -/
theorem envStep_count (e : EnvAction W) (s : Sys W) (x : Item W) :
    ((envStep e s).1.count x : ℤ) = s.count x + (e.added.toList.count x : ℤ) := by
  cases e with
  | scheduleFifo | scheduleLifo =>
    simp [envStep, scheduleFifo, EnvAction.added, Sys.enqueue, Sys.enqueueFront, Sys.setQ,
      Worker.held, count_cons_eq]
    omega
  | stop | wantLd => simp [envStep, EnvAction.added, Worker.held, Worker.wantLd_eq]
  | setEpochMark | setEpochWhenPopped => simp [envStep, EnvAction.added]
  | releaseWeak c =>
    simp only [envStep]
    split <;> simp [EnvAction.added, Sys.count_setCore_of_q]

/-! ## The environment's queue operations -/

theorem envStep_queue (e : EnvAction W) (s : Sys W) (j : Fin W) :
    ((envStep e s).1.core j).q = queueAfter j ((envStep e s).2.map Prod.snd) (s.core j).q := by
  cases e with
  | scheduleFifo | scheduleLifo =>
    simp only [envStep, scheduleFifo, Sys.enqueue, Sys.enqueueFront, Sys.setQ, Sys.setWorker_core,
      Sys.setCore_core, Function.update_apply]
    split_ifs <;> simp_all [queueAfter, Event.onQueue]
  | releaseWeak c =>
    simp only [envStep]
    split
    · simp only [queueAfter, List.map_nil, List.foldl_nil, Sys.setCownOf_core, Sys.setCore_core,
        Function.update_apply]
      split_ifs with h <;> simp [h]
    · rfl
  | _ => rfl

/-- The environment's events: at most one queue operation, which makes a cown
runnable, and no dequeue and no `run`. -/
theorem envStep_events (e : EnvAction W) (s : Sys W) :
    (((envStep e s).2.map Prod.snd).filter Event.isQueueOp).length ≤ 1 ∧
    ∀ p ∈ (envStep e s).2, p.2.WellTagged ∧ (∀ k x, p.2 ≠ .dequeue k x) ∧ ∀ x b, p.2 ≠ .run x b := by
  cases e with
  | releaseWeak c => simp only [envStep]; split <;> simp
  | _ => simp [envStep, scheduleFifo, Event.WellTagged, Item.hasThreadBit, Event.isQueueOp]

/-- A value in a queue after some queue operations was there before, or one of
them put it there. -/
theorem mem_onQueue {j : Fin W} {y : Item W} {e : Event W} {q : List (Item W)}
    (h : y ∈ e.onQueue j q) : y ∈ q ∨ e = .enqueue j y ∨ e = .enqueueFront j y := by
  cases e with
  | dequeue k x =>
    simp only [Event.onQueue] at h
    split_ifs at h
    exacts [.inl (List.mem_of_mem_tail h), .inl h]
  | enqueue k x =>
    simp only [Event.onQueue] at h
    split_ifs at h with hj
    · subst hj
      rcases List.mem_append.1 h with h | h
      exacts [.inl h, .inr (.inl (by rw [List.mem_singleton.1 h]))]
    · exact .inl h
  | enqueueFront k x =>
    simp only [Event.onQueue] at h
    split_ifs at h with hj
    · subst hj
      rcases List.mem_cons.1 h with rfl | h
      exacts [.inr (.inr rfl), .inl h]
    · exact .inl h
  | _ => exact .inl h

theorem mem_queueAfter {j : Fin W} {y : Item W} :
    ∀ {es : List (Event W)} {q : List (Item W)}, y ∈ queueAfter j es q →
      y ∈ q ∨ .enqueue j y ∈ es ∨ .enqueueFront j y ∈ es
  | [], _, h => .inl h
  | e :: _, _, h => by
    rcases mem_queueAfter (q := e.onQueue j _) h with h | h | h
    · rcases mem_onQueue h with h | rfl | rfl <;> simp [h]
    all_goals simp [h]

/-! ## Whole runs -/

section Run

variable {cfg : Config W} {s : Sys W}

theorem next_queue (l : Label W) (j : Fin W) :
    ((next cfg l s).1.core j).q = queueAfter j ((next cfg l s).2.map Prod.snd) (s.core j).q := by
  cases l with
  | worker i a => simpa [next, List.map_map, Function.comp_def] using (workerStep_move cfg i a s).queue j
  | env e => exact envStep_queue e s j

theorem next_shape (hs : ∀ i, SlotShape (s.worker i)) (l : Label W) (j : Fin W) :
    SlotShape ((next cfg l s).1.worker j) := by
  cases l with
  | worker i a =>
    rcases eq_or_ne j i with rfl | hj
    · exact (workerStep_move cfg j a s).slotShape (hs j)
    · simpa [next, workerStep_worker_ne cfg i a s hj] using hs j
  | env e =>
    show SlotShape ((envStep e s).1.worker j)
    rcases envStep_worker e s j with h | h | h | ⟨b, h⟩ <;> rw [h]
    all_goals first | exact hs j | (rw [Worker.wantLd_eq]; exact hs j)

/-- The accounting law of a step of the system. -/
theorem next_count (hs : ∀ i, SlotShape (s.worker i)) (l : Label W) (x : Item W) :
    ((next cfg l s).1.count x : ℤ) + (((next cfg l s).2.map Prod.snd).filterMap Event.dropped).count x =
      s.count x + (l.added.toList.count x : ℤ) := by
  cases l with
  | worker i a =>
    simpa [next, Label.added, List.map_map, Function.comp_def] using
      (workerStep_move cfg i a s).count (hs i) x
  | env e =>
    have : ((envStep e s).2.map Prod.snd).filterMap Event.dropped = [] := by
      cases e with
      | releaseWeak c => simp only [envStep]; split <;> rfl
      | _ => simp [envStep, scheduleFifo, Event.dropped]
    simpa [next, Label.added, this] using envStep_count e s x

/-- The events of a step of the system, with the thread each belongs to. -/
theorem next_events (hs : ∀ i, SlotShape (s.worker i)) (l : Label W) :
    (((next cfg l s).2.map Prod.snd).filter Event.isQueueOp).length ≤ 1 ∧
    (∀ j k x, (j, .dequeue k x) ∈ (next cfg l s).2 → (s.core k).q.head? = some x) ∧
    (∀ i x b, (i, .run x b) ∈ (next cfg l s).2 →
      (s.worker i).pc = .dispatch ∧ (s.worker i).cown = some x) ∧
    ∀ p ∈ (next cfg l s).2, p.2.WellTagged := by
  cases l with
  | worker i a =>
    obtain ⟨hone, hdeq, hrun, htag⟩ := (workerStep_move cfg i a s).events (hs i)
    simp only [next, List.mem_map, Prod.mk.injEq, forall_exists_index, and_imp, List.map_map,
      Function.comp_def, List.map_id']
    exact ⟨hone, fun _ _ _ e he _ hx => hdeq _ _ (hx ▸ he),
      fun _ _ _ e he hi hx => hi ▸ hrun _ _ (hx ▸ he), fun _ e he h => h ▸ htag e he⟩
  | env e =>
    obtain ⟨hone, hev⟩ := envStep_events e s
    exact ⟨hone, fun j k x h => absurd rfl ((hev _ h).2.1 k x),
      fun i x b h => absurd rfl ((hev _ h).2.2 x b), fun p hp => (hev p hp).1⟩

/-- What a run preserves: each slot's shape, no value twice, each token's count and
home, and the tags of every event so far. -/
structure Conserved (s₀ : Sys W) (tr : Trace W) (s : Sys W) : Prop where
  shape : ∀ i, SlotShape (s.worker i)
  le_one : ∀ x, s.count x ≤ 1
  tokens : ∀ k, s.count (.token k) + ((tr.map Prod.snd).filterMap Event.dropped).count (.token k) =
    s₀.count (.token k)
  home : ∀ k j, Item.token k ∈ (s.core j).q → j = k
  tagged : ∀ p ∈ tr, p.2.WellTagged

/-- A value made runnable from outside is a cown that was nowhere. -/
theorem added_fresh {l : Label W} {x : Item W} (hl : Enabled l s) (hx : l.added = some x) :
    s.count x = 0 ∧ x.hasThreadBit = false := by
  rcases l with _ | (_ | _ | _ | _ | _ | _ | _) <;> simp only [Label.added, EnvAction.added] at hx <;>
    cases hx <;> exact ⟨Multiset.count_eq_zero.2 hl, rfl⟩

theorem conserved_step {s₀ : Sys W} {tr : Trace W} (hc : Conserved s₀ tr s) {l : Label W}
    (hl : Enabled l s) : Conserved s₀ (tr ++ (next cfg l s).2) (next cfg l s).1 := by
  have htag := (@next_events _ cfg _ hc.shape l).2.2.2
  have hlaw := @next_count _ cfg _ hc.shape l
  refine ⟨next_shape hc.shape l, fun x => ?_, fun k => ?_, fun k j hk => ?_, ?_⟩
  · have h₁ := hlaw x
    have h₂ := hc.le_one x
    have h₃ : l.added.toList.count x ≤ 1 - s.count x := by
      cases hx : l.added with
      | none => simp
      | some y =>
        by_cases e : y = x
        · subst e; simp [(added_fresh hl hx).1]
        · simp [List.count_cons, e]
    omega
  · have h₁ := hlaw (.token k)
    have h₃ := hc.tokens k
    have h₂ : l.added.toList.count (Item.token k) = 0 := by
      cases hx : l.added with
      | none => rfl
      | some y =>
        have := (added_fresh hl hx).2
        cases y <;> simp_all [Item.hasThreadBit]
    simp only [List.map_append, List.filterMap_append, List.count_append]
    omega
  · rw [next_queue] at hk
    rcases mem_queueAfter hk with h | h | h
    · exact hc.home k j h
    · obtain ⟨p, hp, hpe⟩ := List.mem_map.1 h
      have := htag p hp
      rw [hpe] at this
      exact (by simpa [Event.WellTagged, Item.hasThreadBit] using this : k = j).symm
    · obtain ⟨p, hp, hpe⟩ := List.mem_map.1 h
      have := htag p hp
      rw [hpe] at this
      simp [Event.WellTagged, Item.hasThreadBit] at this
  · intro p hp
    rcases List.mem_append.1 hp with hp | hp
    exacts [hc.tagged p hp, htag p hp]

theorem conserved_init {s₀ : Sys W} (h : Init cfg s₀) : Conserved s₀ [] s₀ where
  shape i := by rw [h.worker i]; trivial
  le_one := Multiset.nodup_iff_count_le_one.1 h.nodup
  tokens _ := by simp
  home := h.tokenHome
  tagged _ h := nomatch h

theorem conserved_reachable {Adm : Trace W → Sys W → Label W → Prop} {s₀ : Sys W} {tr : Trace W}
    (hr : Reach cfg Adm s₀ tr s) : Conserved s₀ tr s := by
  induction hr with
  | init h => exact conserved_init h
  | step l _ hl _ ih => exact conserved_step ih hl

end Run

theorem mem_held {w : Worker W} {x : Item W} (h : w.cown = some x) : x ∈ w.held := by
  simp [Worker.held, h]

/-- Two threads' hands are disjoint parts of the union. -/
theorem held_add_held_le (s : Sys W) {i j : Fin W} (h : i ≠ j) :
    (s.worker i).held + (s.worker j).held ≤ s.union :=
  calc (s.worker i).held + (s.worker j).held = ∑ k ∈ {i, j}, (s.worker k).held := by
        rw [Finset.sum_pair h]
    _ ≤ ∑ k, (s.worker k).held := Finset.sum_le_sum_of_subset (Finset.subset_univ _)
    _ ≤ s.union := le_add_self

/-- A queue and a thread's hands are disjoint parts of the union. -/
theorem queue_add_held_le (s : Sys W) (k i : Fin W) :
    ((s.core k).q : Multiset (Item W)) + (s.worker i).held ≤ s.union :=
  add_le_add
    (Finset.single_le_sum (f := fun j => ((s.core j).q : Multiset (Item W))) (fun _ _ => zero_le _)
      (Finset.mem_univ k))
    (Finset.single_le_sum (f := fun j => (s.worker j).held) (fun _ _ => zero_le _) (Finset.mem_univ i))

/-- With nothing twice in the union, no cown is in two threads' slots. -/
theorem slots_distinct {s : Sys W} (hn : s.union.Nodup) {i j : Fin W} {x : Item W}
    (hi : (s.worker i).cown = some x) (hj : (s.worker j).cown = some x) : i = j := by
  by_contra h
  have hd := Multiset.nodup_add.1 (Multiset.nodup_of_le (held_add_held_le s h) hn)
  exact Multiset.disjoint_left.1 hd.2.2 (mem_held hi) (mem_held hj)

/-- `next_state` keeps `NotInLD`, and `cown->run` returns true. -/
def rerunAnswer : Answer := ⟨false, false, .notInLD, false, true, fun _ => false⟩

/-- Two cores: core 0's queue holds cowns `5` and `6`, then its token; core 1's
queue is empty, its token elsewhere. -/
def consStart : Sys 2 where
  core k := if k = 0 then ⟨[.cown 5, .cown 6, .token 0], [], 0, 0, 0, 0, 1⟩
    else ⟨[], [], 0, 0, 0, 0, 1⟩
  worker := initWorker (Config.ring 1 false false)
  cownOf _ := ⟨none, .epochA, 1, none⟩

theorem consStart_init : Init (Config.ring 1 false false) consStart where
  worker _ := rfl
  nodup := by decide
  tokenHome k j h := by revert h; revert k j; decide
  serviced k := by revert k; decide

/-- `stop()` on thread 1, then four steps of it to the end of its loop; cown `8`
made runnable on core 1 (`schedule_lifo`); two steps of teardown phase 1 on
thread 1; seventeen steps of thread 0 under `rerunAnswer`. -/
def consRun : Trace 2 × Sys 2 :=
  let cfg := Config.ring 1 false false
  let p₁ := runSteps cfg (List.replicate 4 (1, rerunAnswer))
    ([] ++ (next cfg (.env (.stop 1)) consStart).2, (next cfg (.env (.stop 1)) consStart).1)
  runSteps cfg (List.replicate 2 (1, rerunAnswer) ++ List.replicate 17 (0, rerunAnswer))
    (p₁.1 ++ (next cfg (.env (.scheduleLifo 1 8)) p₁.2).2,
      (next cfg (.env (.scheduleLifo 1 8)) p₁.2).1)

theorem consRun_reach : Reach (Config.ring 1 false false) anyStep consStart consRun.1 consRun.2 :=
  reach_runSteps _ (fun _ _ _ _ => trivial)
    (.step (.env (.scheduleLifo 1 8))
      (reach_runSteps _ (fun _ _ _ _ => trivial)
        (.step (.env (.stop 1)) (.init consStart_init) trivial trivial))
      (by decide) trivial)

/-- **Conservation** (lines 171–337, 340–442, 462–509). Over every interleaving
of the threads and of cowns made runnable from outside (only when they are in
no queue, no slot and in no thread's hands between a dequeue and the assignment
to its slot): no value is queued or held twice, so no two threads hold one
cown; each token keeps its start count but for what teardown phase 1 released
of it, and is queued only on its own core; a thread past its loop holds
nothing; `run` and `schedule_fifo` were only ever passed cowns; and every step
keeps the accounting law: what it adds to the union is the cown made runnable,
and what it removes is what a `run` returning false drops, which was the slot
of the thread at line 246, or what teardown phase 1 releases. -/
theorem conservation {cfg : Config W} {Adm : Trace W → Sys W → Label W → Prop} {s₀ : Sys W}
    {tr : Trace W} {s : Sys W} (hr : Reach cfg Adm s₀ tr s) :
    s.union.Nodup ∧
    (∀ i j x, (s.worker i).cown = some x → (s.worker j).cown = some x → i = j) ∧
    (∀ k, s.count (.token k) + ((tr.map Prod.snd).filterMap Event.dropped).count (.token k) =
      s₀.count (.token k)) ∧
    (∀ k j, Item.token k ∈ (s.core j).q → j = k) ∧
    (∀ i, (s.worker i).pc.pastLoop = true → (s.worker i).cown = none) ∧
    (∀ i x b, (i, .run x b) ∈ tr → x.hasThreadBit = false) ∧
    (∀ i x sc, (i, .scheduleFifo x sc) ∈ tr → x.hasThreadBit = false) ∧
    ∀ l, Enabled l s →
      (∀ x, ((next cfg l s).1.count x : ℤ) +
        (((next cfg l s).2.map Prod.snd).filterMap Event.dropped).count x =
          s.count x + (l.added.toList.count x : ℤ)) ∧
      ∀ i x b, (i, .run x b) ∈ (next cfg l s).2 →
        (s.worker i).pc = .dispatch ∧ (s.worker i).cown = some x := by
  have hc := conserved_reachable hr
  have hn : s.union.Nodup := Multiset.nodup_iff_count_le_one.2 hc.le_one
  refine ⟨hn, fun _ _ _ hi hj => slots_distinct hn hi hj, hc.tokens, hc.home, fun i hpc => ?_,
    fun i x b h => hc.tagged _ h, fun i x sc h => hc.tagged _ h,
    fun l _ => ⟨next_count hc.shape l, (next_events hc.shape l).2.2.1⟩⟩
  have := hc.shape i
  unfold SlotShape at this
  revert hpc this
  cases (s.worker i).pc <;> simp [Pc.pastLoop]

/-- `stop()` on thread 1, which leaves its loop at once (its queue is empty)
and starts its teardown; cown `8` is made runnable on its core and released by
phase 1; meanwhile thread 0 runs cown `5`, swaps in cown `6` and is about to
run it. -/
theorem conservation_with_teardown :
    let cfg := Config.ring 1 false false
    Reach cfg anyStep consStart consRun.1 consRun.2 ∧
    ((consRun.2.worker 0).pc = .dispatch ∧ (consRun.2.worker 0).cown = some (.cown 6) ∧
      (consRun.2.worker 1).pc = .barrier ∧ Item.token 0 ∈ (consRun.2.core 0).q ∧
      (0, .run (.cown 5) true) ∈ consRun.1 ∧ (0, .scheduleFifo (.cown 5) true) ∈ consRun.1 ∧
      (1, .collected (.cown 8)) ∈ consRun.1) ∧
    consRun.2.union.Nodup ∧
    (∀ i j x, (consRun.2.worker i).cown = some x → (consRun.2.worker j).cown = some x → i = j) ∧
    (∀ k, consRun.2.count (.token k) +
      ((consRun.1.map Prod.snd).filterMap Event.dropped).count (.token k) =
        consStart.count (.token k)) ∧
    (∀ k j, Item.token k ∈ (consRun.2.core j).q → j = k) ∧
    (∀ i, (consRun.2.worker i).pc.pastLoop = true → (consRun.2.worker i).cown = none) ∧
    (∀ i x b, (i, .run x b) ∈ consRun.1 → x.hasThreadBit = false) ∧
    (∀ i x sc, (i, .scheduleFifo x sc) ∈ consRun.1 → x.hasThreadBit = false) ∧
    ∀ l, Enabled l consRun.2 →
      (∀ x, ((next cfg l consRun.2).1.count x : ℤ) +
        (((next cfg l consRun.2).2.map Prod.snd).filterMap Event.dropped).count x =
          consRun.2.count x + (l.added.toList.count x : ℤ)) ∧
      ∀ i x b, (i, .run x b) ∈ (next cfg l consRun.2).2 →
        (consRun.2.worker i).pc = .dispatch ∧ (consRun.2.worker i).cown = some x :=
  ⟨consRun_reach, by decide, conservation consRun_reach⟩

/-! ## Values in flight -/

/-- The queues and the threads' `cown` slots: `Sys.union` without the values
held in flight (`n` of line 262, `stolen` of line 278). -/
def Sys.queuedOrSlotted (s : Sys W) : Multiset (Item W) :=
  ∑ k, ((s.core k).q : Multiset (Item W)) + ∑ i, ((s.worker i).cown.toList : Multiset (Item W))

/-- One core whose queue holds cowns `5` and `6`, then its token. -/
def swapStart : Sys 1 where
  core _ := ⟨[.cown 5, .cown 6, .token 0], [], 0, 0, 0, 0, 1⟩
  worker := initWorker (Config.ring 0 false false)
  cownOf _ := ⟨none, .epochA, 1, none⟩

theorem swapStart_init : Init (Config.ring 0 false false) swapStart where
  worker _ := rfl
  nodup := by simp [Sys.union, swapStart, initWorker, Worker.held, Pc.inflight]
  tokenHome _ _ _ := @Subsingleton.elim (Fin 1) _ _ _
  serviced _ := rfl

/-- `n` steps of the one thread under `rerunAnswer`. Cown `5` is popped and run;
the swap of line 262 dequeues cown `6` (after `9` steps); cown `6` is run and the
next swap dequeues the token (after `19`). -/
def swapRun (n : Nat) : Trace 1 × Sys 1 :=
  runSteps (Config.ring 0 false false) (List.replicate n (0, rerunAnswer)) ([], swapStart)

/-- **A dequeued value is in no queue and no slot until the swap.** After the
dequeue at line 262 the token is held only in `n`: it is in no queue and in no
slot, though it is still counted once in `Sys.union`. And while cown `6` is
held so, a `schedule_lifo` of it (it is in no queue and no slot) followed by the
swap leaves it both queued and in the slot. -/
theorem value_in_flight :
    Reach (Config.ring 0 false false) anyStep swapStart (swapRun 19).1 (swapRun 19).2 ∧
    swapStart.queuedOrSlotted.count (.token 0) = 1 ∧
    (swapRun 19).2.queuedOrSlotted.count (.token 0) = 0 ∧
    (swapRun 19).2.count (.token 0) = 1 ∧
    Reach (Config.ring 0 false false) anyStep swapStart (swapRun 9).1 (swapRun 9).2 ∧
    (swapRun 9).2.queuedOrSlotted.count (.cown 6) = 0 ∧
    (next (Config.ring 0 false false) (.worker 0 rerunAnswer)
      (next (Config.ring 0 false false) (.env (.scheduleLifo 0 6)) (swapRun 9).2).1).1.queuedOrSlotted.count
        (.cown 6) = 2 :=
  ⟨reach_runSteps _ (fun _ _ _ _ => trivial) (.init swapStart_init), by decide, by decide, by decide,
    reach_runSteps _ (fun _ _ _ _ => trivial) (.init swapStart_init), by decide, by decide⟩

end Verona.Rt
