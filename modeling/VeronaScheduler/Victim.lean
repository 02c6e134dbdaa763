import VeronaScheduler.Frame
import Mathlib.Dynamics.PeriodicPts
import Mathlib.Data.ZMod.Defs

/- The victim of a thread's steal attempts: `fast_steal` (lines 340–364), called
   by the fairness steal and after `run`, and the copy of its code in `steal`
   (lines 396–411).

   Each attempt is reported as an `Event.stealAttempt v r`, with `r = none`
   when it was skipped because `v` is the thread's own core. Over every run,
   the attempts of a thread, read from `victim = core->next` on, are each on the
   current victim, which a failed attempt moves to `victim->next` and a
   successful one keeps (`victimWalk`); an attempt is skipped exactly when it is
   on the thread's own core, so none dequeues from it. On a ring whose `next`
   pointers form one cycle, `W` failed attempts in a row are on `W` consecutive
   cores of the ring, hence on each core once: each other core's queue is tried
   exactly once, and the own core is skipped once (`steal_round_robin`). -/
namespace Verona.Rt

variable {W : Nat}

/-- A steal attempt's victim and result. -/
def Event.attempt : Event W → Option (Fin W × Option (Option (Item W)))
  | .stealAttempt v r => some (v, r)
  | _ => none

/-- Thread `i`'s steal attempts in `tr`, in order. -/
def attempts (i : Fin W) (tr : Trace W) : List (Fin W × Option (Option (Item W))) :=
  (threadEvents i tr).filterMap Event.attempt

/-- Follow the attempts `as` from `victim = v`: each must be on the current
victim, which a failed attempt moves to `next` and a successful one keeps;
`none` as soon as one is elsewhere. -/
def victimWalk (next : Fin W → Fin W) : Fin W → List (Fin W × Option (Option (Item W))) →
    Option (Fin W)
  | v, [] => some v
  | v, (u, r) :: as =>
    if u = v then victimWalk next (if r.join.isSome then u else next u) as else none

theorem victimWalk_append (next : Fin W → Fin W) :
    ∀ (v : Fin W) (as bs : List (Fin W × Option (Option (Item W)))),
      victimWalk next v (as ++ bs) = (victimWalk next v as).bind (victimWalk next · bs)
  | _, [], _ => rfl
  | v, (u, r) :: as, bs => by
    simp only [List.cons_append, victimWalk]
    split_ifs <;> simp [victimWalk_append]

/-- A run of failed attempts from `v` visits `v`, `next v`, `next (next v)`, … -/
theorem victimWalk_failed (next : Fin W → Fin W) :
    ∀ {v v' : Fin W} {as : List (Fin W × Option (Option (Item W)))},
      victimWalk next v as = some v' → (∀ a ∈ as, a.2.join = none) →
      as.map Prod.fst = (List.range as.length).map fun k => next^[k] v
  | _, _, [], _, _ => rfl
  | v, v', (u, r) :: as, h, hf => by
    have hr : r.join = none := hf _ (List.mem_cons_self _ _)
    simp only [victimWalk, hr, Option.isSome_none, Bool.false_eq_true, if_false] at h
    split_ifs at h with hu
    subst hu
    have ih := victimWalk_failed next h fun a ha => hf a (List.mem_cons_of_mem _ ha)
    simp only [List.map_cons, List.length_cons, List.range_succ_eq_map, ih, List.map_map]
    simp [Function.comp_def, Function.iterate_succ_apply]

theorem victimWalk_of_append (next : Fin W → Fin W) {v v' : Fin W}
    {as bs : List (Fin W × Option (Option (Item W)))} (h : victimWalk next v (as ++ bs) = some v') :
    ∃ u, victimWalk next v as = some u ∧ victimWalk next u bs = some v' := by
  rw [victimWalk_append] at h
  cases hv : victimWalk next v as with
  | none => simp [hv] at h
  | some u => exact ⟨u, rfl, by simpa [hv] using h⟩

/-- On a ring whose `next` pointers form one cycle, the first `W` steps from any
core visit every core exactly once. -/
theorem iterate_bijective_of_cycle {next : Fin W → Fin W} (hcyc : ∀ a b, ∃ n, next^[n] a = b)
    (v : Fin W) : Function.Bijective fun k : Fin W => next^[k] v := by
  have hper : v ∈ Function.periodicPts next := by
    obtain ⟨n, hn⟩ := hcyc (next v) v
    exact Function.mk_mem_periodicPts n.succ_pos (by rw [Function.IsPeriodicPt,
      Function.IsFixedPt, Function.iterate_succ_apply, hn])
  set p := Function.minimalPeriod next v
  have hinj : Function.Injective fun k : Fin p => next^[k] v := fun k l h =>
    Fin.ext (Function.iterate_injOn_Iio_minimalPeriod k.2 l.2 h)
  have hsurj : Function.Surjective fun k : Fin p => next^[k] v := fun b => by
    obtain ⟨n, hn⟩ := hcyc v b
    exact ⟨⟨n % p, Nat.mod_lt _ (Function.minimalPeriod_pos_of_mem_periodicPts hper)⟩,
      by rw [← hn]; exact Function.iterate_mod_minimalPeriod_eq⟩
  have hp : p = W := le_antisymm (by simpa using Fintype.card_le_of_injective _ hinj)
    (by simpa using Fintype.card_le_of_surjective _ hsurj)
  have hlt : ∀ k : Fin W, (k : Nat) ∈ Set.Iio p := fun k => by rw [Set.mem_Iio, hp]; exact k.2
  have hinjW : Function.Injective fun k : Fin W => next^[k] v := fun k l h =>
    Fin.ext (Function.iterate_injOn_Iio_minimalPeriod (hlt k) (hlt l) h)
  exact ⟨hinjW, Finite.injective_iff_surjective.mp hinjW⟩

/-- `W` failed attempts in a row on a one-cycle ring, each skipped exactly when
on the own core `i`: one attempt on each core, skipped on `i`, a failed dequeue
on every other. -/
theorem window_covers {next : Fin W → Fin W} (hcyc : ∀ a b, ∃ n, next^[n] a = b) {i v v' : Fin W}
    {win : List (Fin W × Option (Option (Item W)))} (hw : victimWalk next v win = some v')
    (hlen : win.length = W) (hf : ∀ p ∈ win, p.2.join = none)
    (hskip : ∀ p ∈ win, p.2 = none ↔ p.1 = i) (j : Fin W) :
    win.filter (fun p => p.1 == j) = [(j, if j = i then none else some none)] := by
  have hmap : win.map Prod.fst = List.ofFn fun k : Fin W => next^[k] v := by
    rw [victimWalk_failed next hw hf, List.ofFn_eq_map, hlen, ← List.map_coe_finRange,
      List.map_map]; rfl
  have hbij := iterate_bijective_of_cycle hcyc v
  have hcount : (win.filter fun p => p.1 == j).length = 1 := by
    rw [← List.countP_eq_length_filter,
      show win.countP (fun p => p.1 == j) = (win.map Prod.fst).count j by
        rw [List.count, List.countP_map]; rfl, hmap]
    exact List.count_eq_one_of_mem (List.nodup_ofFn.mpr hbij.1)
      (List.mem_ofFn _ _ |>.mpr (hbij.2 j))
  refine List.eq_replicate_iff.mpr ⟨hcount, fun ⟨u, r⟩ hpf => ?_⟩
  obtain ⟨hp, hj⟩ := List.mem_filter.mp hpf
  simp only [beq_iff_eq] at hj
  subst hj
  have hs := hskip _ hp
  have hr := hf _ hp
  simp only at hs hr
  split_ifs with hu
  · simpa [hu] using hs
  · cases r with
    | none => exact absurd (hs.mp rfl) hu
    | some r => cases r <;> simp_all

/-- The ring of `Config.ring` is one cycle. -/
theorem ring_cycle (n : Nat) (fair detectLeaks : Bool) (a b : Fin (n + 1)) :
    ∃ m, (Config.ring n fair detectLeaks).next^[m] a = b := by
  have h : ∀ m : Nat, (Config.ring n fair detectLeaks).next^[m] a = a + m := fun m => by
    induction m with
    | zero => simp
    | succ m ih => rw [Function.iterate_succ_apply', ih]; simp [Config.ring, add_assoc]
  exact ⟨(b - a).val, by rw [h, Fin.cast_val_eq_self]; exact add_sub_cancel a b⟩

/-! ## Every run -/

section Move

variable {cfg : Config W} {i : Fin W} {a : Answer} {s : Sys W} {w : Worker W} {s' : Sys W}
  {es : List (Event W)}

/-- A move's steal attempts follow the victim, and each is skipped exactly when
it is on the thread's own core. -/
theorem Move.victim (hm : Move cfg i a s w s' es) :
    victimWalk cfg.next w.victim (es.filterMap Event.attempt) = some (s'.worker i).victim ∧
    ∀ p ∈ es.filterMap Event.attempt, p.2 = none ↔ p.1 = i := by
  cases hm
  case collectStubs | phase2 => split <;> simp [Event.attempt, victimWalk]
  all_goals simp_all [Worker.ldStateChange, Worker.enterScan, Worker.enterPrescan, Event.attempt,
    victimWalk]

end Move

/-- The victim facts of thread `i`, over its record and its own events so far. -/
def VictimTrace (cfg : Config W) (i : Fin W) (es : List (Event W)) (w : Worker W) : Prop :=
  victimWalk cfg.next (cfg.next i) (es.filterMap Event.attempt) = some w.victim ∧
    ∀ p ∈ es.filterMap Event.attempt, p.2 = none ↔ p.1 = i

theorem victimTrace_reachable {cfg : Config W} {Adm : Trace W → Sys W → Label W → Prop}
    {s₀ : Sys W} {tr : Trace W} {s : Sys W} (hr : Reach cfg Adm s₀ tr s) (i : Fin W) :
    VictimTrace cfg i (threadEvents i tr) (s.worker i) :=
  reach_thread (fun i es w => VictimTrace cfg i es w) (fun _ => ⟨rfl, by simp⟩)
    (fun i a _ _ ih => by
      obtain ⟨h₁, h₂⟩ := ih i
      obtain ⟨h₃, h₄⟩ := (workerStep_move cfg i a _).victim
      refine ⟨by rw [List.filterMap_append, victimWalk_append, h₁]; exact h₃, fun p hp => ?_⟩
      rcases List.mem_append.mp (List.filterMap_append .. ▸ hp) with hp | hp
      exacts [h₂ p hp, h₄ p hp])
    (fun _ _ w h => ⟨h, by rw [Worker.wantLd_eq]; exact h,
      fun _ => by simpa [VictimTrace, Event.attempt, victimWalk_append] using h,
      fun _ _ => by simpa [VictimTrace, Event.attempt, victimWalk_append] using h⟩) hr i

/-- Round-robin stealing (lines 340–411), on a ring whose `next` pointers form
one cycle: a thread's steal attempts, from `victim = core->next` on, are each on
the current victim, which a failed attempt moves to `victim->next` and a
successful one keeps; an attempt is skipped exactly when it is on the thread's
own core, so no attempt dequeues from it; and among any `W` consecutive failed
attempts there is exactly one on each core: a skip on the own core, and one
failed dequeue on every other core's queue. -/
theorem steal_round_robin {cfg : Config W} {Adm : Trace W → Sys W → Label W → Prop}
    {s₀ : Sys W} {tr : Trace W} {s : Sys W} (hcyc : ∀ a b, ∃ n, cfg.next^[n] a = b)
    (hr : Reach cfg Adm s₀ tr s) :
    (∀ i, victimWalk cfg.next (cfg.next i) (attempts i tr) = some (s.worker i).victim) ∧
    (∀ i p, p ∈ attempts i tr → (p.2 = none ↔ p.1 = i)) ∧
    (∀ i k, (((attempts i tr).drop k).take W).length = W →
      (∀ p ∈ ((attempts i tr).drop k).take W, p.2.join = none) →
      ∀ j, (((attempts i tr).drop k).take W).filter (fun p => p.1 == j) =
        [(j, if j = i then none else some none)]) := by
  refine ⟨fun i => (victimTrace_reachable hr i).1, fun i => (victimTrace_reachable hr i).2,
    fun i k hlen hf j => ?_⟩
  obtain ⟨h₁, h₂⟩ := victimTrace_reachable hr i
  change victimWalk _ _ (attempts i tr) = _ at h₁
  change ∀ p ∈ attempts i tr, _ at h₂
  rw [← List.take_append_drop k (attempts i tr)] at h₁
  obtain ⟨u, -, h₁⟩ := victimWalk_of_append _ h₁
  rw [← List.take_append_drop W ((attempts i tr).drop k)] at h₁
  obtain ⟨u', h₁, -⟩ := victimWalk_of_append _ h₁
  exact window_covers hcyc h₁ hlen hf
    (fun p hp => h₂ p (List.mem_of_mem_drop (List.mem_of_mem_take hp))) j

/-- Two cores with empty queues. -/
def idleStart : Sys 2 where
  core _ := ⟨[], [], 0, 0, 0, 0, 1⟩
  worker := initWorker (Config.ring 1 false false)
  cownOf _ := ⟨none, .epochA, 1, none⟩

theorem idleStart_init : Init (Config.ring 1 false false) idleStart where
  worker _ := rfl
  nodup := by decide
  tokenHome _ _ h := by simp [idleStart] at h
  serviced _ := rfl

/-- Thread `0` finds its queue empty and steals twice: from core `1`, which is
empty, then from its own core, which it skips. -/
def idleRun : Trace 2 × Sys 2 :=
  runSteps (Config.ring 1 false false) (List.replicate 13 (0, answering .notInLD)) ([], idleStart)

/-- The two failed attempts of thread `0` are a window of `W = 2` attempts, one
on each core, and the victim is back at `core->next`. -/
theorem steal_round_robin_on_idle :
    let cfg := Config.ring 1 false false
    let tr := idleRun.1
    let s := idleRun.2
    (∀ a b, ∃ n, cfg.next^[n] a = b) ∧ Reach cfg anyStep idleStart tr s ∧
    attempts 0 tr = [(1, some none), (0, none)] ∧ (s.worker 0).victim = 1 ∧
    (∀ i, victimWalk cfg.next (cfg.next i) (attempts i tr) = some (s.worker i).victim) ∧
    (∀ (i : Fin 2) p, p ∈ attempts i tr → (p.2 = none ↔ p.1 = i)) ∧
    (∀ (i : Fin 2) k, (((attempts i tr).drop k).take 2).length = 2 →
      (∀ p ∈ ((attempts i tr).drop k).take 2, p.2.join = none) →
      ∀ j, (((attempts i tr).drop k).take 2).filter (fun p => p.1 == j) =
        [(j, if j = i then none else some none)]) :=
  have hr := reach_runSteps _ (fun _ _ _ _ => trivial) (.init idleStart_init)
  ⟨ring_cycle 1 false false, hr, by decide, by decide, steal_round_robin (ring_cycle 1 false false) hr⟩

end Verona.Rt
