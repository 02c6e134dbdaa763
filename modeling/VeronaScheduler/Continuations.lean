import VeronaScheduler.Registries

/- Runs on from a reachable state (lines 181–212, 248–281, 462–509 and
   688–771).

   `Steps` is a continuation of a run: any steps of any threads and of the
   environment, each enabled and admitted, from a trace and a state on. Two
   properties hold over every continuation.

   1. A core's token comes back (`token_returns`). A thread that holds core
      `k`'s token, in its slot or in flight between the dequeue of line 262 or
      the steal of line 278 and the swap, puts it back in `k`'s queue within
      five of its own steps, whatever the other threads and the environment do
      meanwhile, and runs no cown before it does. `tokenDist` is the number of
      steps left; each step of the thread lowers it by one (`Move.token_step`)
      and no other step touches it.
   2. A collected stub stays out (`collected_stays_out`). A cown bound to a
      core but in no registry, as `collect_cown_stubs` leaves a stub it frees,
      stays bound to that core and is never in a registry again, so no later
      collection unlinks or frees it a second time: a registry only grows by
      `prerun`'s registration of an unbound cown (`next_cowns`).
   3. A core's registry belongs to its thread (`registry_owned`). While thread
      `k` takes no step, core `k`'s registry and `total_cowns` do not change and
      `free_cowns` only grows (a cown of `k` losing its last weak reference),
      even when other threads steal and run `k`'s cowns: `prerun` registers a
      stolen cown on the thief's own core. This is the shared-resource policy
      under which the registry needs no lock.

   4. A stub leaves a registry only in its thread's collections
      (`registry_leaves_only_outdated`): in any step, a cown leaves core `k`'s
      registry only in a stub collection by thread `k`. At the head of the loop
      it has no weak reference left and an `epoch_when_popped` unset or
      outdated; in the teardown collection it is unlinked with weak references
      left (leak detection on) or freed with an unset or outdated epoch.

   And over whole runs: a thread leaves its loop only after `stop()`
   (`exit_only_after_stop`): `steal` gives up only when it finds `running`
   false (line 378), and nothing but `stop()` writes `running`, so a thread in
   teardown or done has `running` false. -/
namespace Verona.Rt

variable {W : Nat}

/-- A continuation of a run: from the trace `tr` and the state `s`, the steps
`ls` are taken in turn, each enabled and admitted, and lead to the trace `tr'`
and the state `s'`. -/
inductive Steps (cfg : Config W) (Adm : Trace W → Sys W → Label W → Prop) :
    Trace W → Sys W → List (Label W) → Trace W → Sys W → Prop
  | nil (tr : Trace W) (s : Sys W) : Steps cfg Adm tr s [] tr s
  | cons {tr : Trace W} {s : Sys W} {l : Label W} {ls : List (Label W)} {tr' : Trace W}
      {s' : Sys W} : Enabled l s → Adm tr s l →
      Steps cfg Adm (tr ++ (next cfg l s).2) (next cfg l s).1 ls tr' s' →
      Steps cfg Adm tr s (l :: ls) tr' s'

/-- Whether step `l` is one of thread `i`. -/
def Label.isOf (i : Fin W) : Label W → Bool
  | .worker j _ => j == i
  | .env _ => false

theorem Label.isOf_iff {i : Fin W} {l : Label W} : l.isOf i = true ↔ ∃ a, l = .worker i a := by
  cases l with
  | worker j a =>
    simp only [Label.isOf, beq_iff_eq, Label.worker.injEq]
    exact ⟨fun h => ⟨a, h, rfl⟩, fun ⟨_, h, _⟩ => h⟩
  | env e => simp [Label.isOf]

section Steps

variable {cfg : Config W} {Adm : Trace W → Sys W → Label W → Prop}

theorem Steps.reach {s₀ : Sys W} {tr : Trace W} {s : Sys W} {ls : List (Label W)} {tr' : Trace W}
    {s' : Sys W} (hr : Reach cfg Adm s₀ tr s) (hs : Steps cfg Adm tr s ls tr' s') :
    Reach cfg Adm s₀ tr' s' := by
  induction hs with
  | nil => exact hr
  | cons hl ha _ ih => exact ih (.step _ hr hl ha)

theorem Steps.prefix {tr : Trace W} {s : Sys W} {ls : List (Label W)} {tr' : Trace W} {s' : Sys W}
    (hs : Steps cfg Adm tr s ls tr' s') : ∃ t, tr' = tr ++ t := by
  induction hs with
  | nil => exact ⟨[], by simp⟩
  | cons _ _ _ ih =>
    obtain ⟨t, rfl⟩ := ih
    exact ⟨_, List.append_assoc _ _ _⟩

/-- Steps of threads alone, as `runSteps` takes them, are a continuation. -/
theorem steps_runSteps :
    ∀ (ls : List (Fin W × Answer)), (∀ p ∈ ls, ∀ tr s, Adm tr s (.worker p.1 p.2)) →
      ∀ (tr : Trace W) (s : Sys W), Steps cfg Adm tr s (ls.map fun p => .worker p.1 p.2)
        (runSteps cfg ls (tr, s)).1 (runSteps cfg ls (tr, s)).2
  | [], _, tr, s => .nil tr s
  | (_, _) :: ls, ha, _, _ =>
    .cons trivial (ha _ (List.mem_cons_self _ _) _ _)
      (steps_runSteps ls (fun p hp => ha p (List.mem_cons_of_mem _ hp)) _ _)

end Steps

/-! ## The token comes back -/

/-- How many steps of its own a thread needs to put core `k`'s token back in
`k`'s queue: from the swap of lines 266–267 or 280–281, with the token in
flight, through the head of the loop, the fairness test and the pop test to
`prerun`, with the token in the slot, which enqueues it (lines 466–494); zero
if the thread holds no such token. -/
def tokenDist (k : Fin W) (w : Worker W) : Nat :=
  if w.pc = .swap (.token k) then 5
  else if w.cown = some (.token k) then
    match w.pc with
    | .top => 4
    | .fairness => 3
    | .popLocal => 2
    | .prerun => 1
    | _ => 0
  else 0

theorem tokenDist_le_five (k : Fin W) (w : Worker W) : tokenDist k w ≤ 5 := by
  unfold tokenDist
  split_ifs <;> (try split) <;> omega

/-- `tokenDist` reads only the slot and the program point. -/
theorem tokenDist_congr {k : Fin W} {w w' : Worker W} (hpc : w'.pc = w.pc) (hc : w'.cown = w.cown) :
    tokenDist k w' = tokenDist k w := by
  simp only [tokenDist, hpc, hc]

/-- Each step of a thread holding core `k`'s token brings it one step nearer
to `k`'s queue, runs nothing, and the last one enqueues it. -/
theorem Move.token_step {cfg : Config W} {i : Fin W} {a : Answer} {s : Sys W} {w : Worker W}
    {s' : Sys W} {es : List (Event W)} (hm : Move cfg i a s w s' es) {k : Fin W}
    (h : 0 < tokenDist k w) :
    (es = [.enqueue k (.token k)] ∧ tokenDist k w = 1) ∨
      (0 < tokenDist k (s'.worker i) ∧ tokenDist k (s'.worker i) + 1 = tokenDist k w ∧
        ∀ x b, Event.run x b ∉ es) := by
  cases hm <;> simp_all [tokenDist] <;> split_ifs at h <;> simp_all

section Token

variable {cfg : Config W} {Adm : Trace W → Sys W → Label W → Prop}

/-- In a reachable state, a token in a thread's slot is between the head of the
loop and `prerun` (`Homed`), so its distance is counted. -/
theorem tokenDist_pos {s₀ : Sys W} {tr : Trace W} {s : Sys W} (hr : Reach cfg Adm s₀ tr s)
    {i k : Fin W} (hh : (s.worker i).cown = some (.token k) ∨ (s.worker i).pc = .swap (.token k)) :
    0 < tokenDist k (s.worker i) := by
  rcases hh with hc | hpc
  · have h := homed_reachable hr i
    unfold Homed at h
    simp only [tokenDist, hc, if_true]
    split_ifs
    · omega
    · generalize (s.worker i).pc = p at h ⊢
      cases p <;> (try cases ‹LdCaller›) <;> simp_all
  · simp [tokenDist, hpc]

/-- A step of another thread or of the environment leaves thread `i`'s
distance alone and runs nothing on thread `i`. -/
theorem next_token_of_not_isOf (cfg : Config W) (s : Sys W) {l : Label W} {i : Fin W}
    (hl : l.isOf i = false) (k : Fin W) :
    tokenDist k ((next cfg l s).1.worker i) = tokenDist k (s.worker i) ∧
      ∀ x b, (i, Event.run x b) ∉ (next cfg l s).2 := by
  cases l with
  | worker j a =>
    have hj : i ≠ j := fun h => by simp [Label.isOf, h] at hl
    refine ⟨by simp [next, workerStep_worker_ne cfg j a s hj], fun x b h => ?_⟩
    obtain ⟨e, -, he⟩ := List.mem_map.mp h
    exact hj (congrArg Prod.fst he).symm
  | env e =>
    refine ⟨?_, fun x b h => envStep_no_run s e h x b rfl⟩
    rcases envStep_worker e s i with h | h | h | ⟨b, h⟩ <;>
      exact tokenDist_congr (by simp [next, h, Worker.wantLd_eq]) (by simp [next, h, Worker.wantLd_eq])

/-- Over a continuation with as many steps of thread `i` as its distance, the
token comes back, with no `run` of thread `i` before. -/
theorem Steps.token_back {tr : Trace W} {s : Sys W} {ls : List (Label W)} {tr' : Trace W}
    {s' : Sys W} (hs : Steps cfg Adm tr s ls tr' s') {i k : Fin W}
    (h : 0 < tokenDist k (s.worker i)) (hn : tokenDist k (s.worker i) ≤ ls.countP (Label.isOf i)) :
    ∃ t₁ t₂, tr' = tr ++ t₁ ++ (i, .enqueue k (.token k)) :: t₂ ∧
      ∀ x b, (i, .run x b) ∉ t₁ := by
  induction hs with
  | nil => simp at hn; omega
  | @cons tr s l ls tr' s' _ _ hs ih =>
    by_cases hl : l.isOf i = true
    · rw [List.countP_cons, if_pos hl] at hn
      obtain ⟨a, rfl⟩ := Label.isOf_iff.mp hl
      rcases (workerStep_move cfg i a s).token_step h with ⟨hes, -⟩ | ⟨h', hd, hno⟩
      · obtain ⟨t, rfl⟩ := hs.prefix
        exact ⟨[], t, by simp [next, hes]⟩
      · obtain ⟨t₁, t₂, rfl, ht⟩ := ih h' (by simp only [next] at hd ⊢; omega)
        refine ⟨(next cfg (.worker i a) s).2 ++ t₁, t₂, by simp, fun x b hx => ?_⟩
        rcases List.mem_append.mp hx with hx | hx
        · obtain ⟨e, he, he'⟩ := List.mem_map.mp hx
          cases he'
          exact hno x b he
        · exact ht x b hx
    · have ⟨hd, hno⟩ := next_token_of_not_isOf cfg s (Bool.eq_false_iff.mpr hl) k
      rw [List.countP_cons, if_neg hl, Nat.add_zero] at hn
      obtain ⟨t₁, t₂, rfl, ht⟩ := ih (hd ▸ h) (hd ▸ hn)
      refine ⟨(next cfg l s).2 ++ t₁, t₂, by simp, fun x b hx => ?_⟩
      rcases List.mem_append.mp hx with hx | hx
      exacts [hno x b hx, ht x b hx]

/-- **A core's token comes back.** In every reachable state, a thread that
holds core `k`'s token, in its slot or in flight after the dequeue of line 262
or the steal of line 278, enqueues it on `k`'s queue within any five steps of
its own, whatever other threads and the environment do in between, and calls
`run` on nothing before that. -/
theorem token_returns {s₀ : Sys W} {tr : Trace W} {s : Sys W} (hr : Reach cfg Adm s₀ tr s)
    {i k : Fin W} (hh : (s.worker i).cown = some (.token k) ∨ (s.worker i).pc = .swap (.token k))
    {ls : List (Label W)} {tr' : Trace W} {s' : Sys W} (hs : Steps cfg Adm tr s ls tr' s')
    (h5 : 5 ≤ ls.countP (Label.isOf i)) :
    ∃ t₁ t₂, tr' = tr ++ t₁ ++ (i, .enqueue k (.token k)) :: t₂ ∧
      ∀ x b, (i, .run x b) ∉ t₁ :=
  hs.token_back (tokenDist_pos hr hh) ((tokenDist_le_five k _).trans h5)

/-- After 19 steps from `swapStart` the thread has dequeued its token at line
262 (`swapRun`); five more of its steps put it back. -/
theorem token_returns_on_swap :
    let cfg := Config.ring 0 false false
    let r := runSteps cfg (List.replicate 5 (0, rerunAnswer)) (swapRun 19)
    Reach cfg anyStep swapStart (swapRun 19).1 (swapRun 19).2 ∧
    ((swapRun 19).2.worker 0).pc = .swap (.token 0) ∧
    Steps cfg anyStep (swapRun 19).1 (swapRun 19).2
      ((List.replicate 5 (0, rerunAnswer)).map fun p => .worker p.1 p.2) r.1 r.2 ∧
    5 ≤ ((List.replicate 5 (0, rerunAnswer)).map fun p => Label.worker p.1 p.2).countP
      (Label.isOf (0 : Fin 1)) ∧
    ∃ t₁ t₂, r.1 = (swapRun 19).1 ++ t₁ ++ (0, .enqueue 0 (.token 0)) :: t₂ ∧
      ∀ x b, (0, .run x b) ∉ t₁ :=
  have hr := reach_runSteps _ (fun _ _ _ _ => trivial) (.init swapStart_init)
  have hs := @steps_runSteps 1 _ anyStep _ (fun _ _ _ _ => trivial) _ _
  ⟨hr, by decide, hs, by decide, token_returns hr (.inr (by decide)) hs (by decide)⟩

end Token

/-! ## A collected stub stays out -/

theorem register_cowns {me : Fin W} {f : CownId → CownRec W} {core : Core W} {c d : CownId}
    (h : d ∈ (register me f core c).2.cowns) : d ∈ core.cowns ∨ (f d).owningCore = none := by
  unfold register at h
  split at h
  · rcases List.mem_cons.mp h with rfl | h
    exacts [.inr ‹_›, .inl h]
  · exact .inl h

section Registries

variable (cfg : Config W) (s : Sys W)

theorem registry_cowns {c d : Core W} (h : c.registry = d.registry) : c.cowns = d.cowns :=
  congrArg Prod.fst h

/-- A registry grows only by `prerun`'s registration of an unbound cown. -/
theorem next_cowns (l : Label W) (k : Fin W) {c : CownId} (h : c ∈ ((next cfg l s).1.core k).cowns) :
    c ∈ (s.core k).cowns ∨ (s.cownOf c).owningCore = none := by
  cases l with
  | worker i a =>
    simp only [next] at h
    rcases (workerStep_move cfg i a s).registry with ⟨-, -, hq⟩ | ⟨_, -, -, hq⟩ | ⟨d, -, -, -, hq⟩ <;>
      rw [registry_cowns (hq k)] at h
    · exact .inl h
    · rw [Function.update_apply] at h
      split at h
      · subst k; exact .inl ((collectCownStubs_cowns_sublist _ _).subset h)
      · exact .inl h
    · rw [Function.update_apply] at h
      split at h
      · subst k; exact register_cowns h
      · exact .inl h
  | env e =>
    rcases envStep_cores e s with ⟨-, hq⟩ | ⟨d, k', -, -, -, hq⟩ <;>
      rw [next, registry_cowns (Core.registry_eq_of_unqueued (hq k))] at h
    · exact .inl h
    · rw [Function.update_apply] at h
      split at h
      · subst k; exact .inl h
      · exact .inl h

/-- **A collected stub stays out.** A cown bound to a core and in no core's
registry, as a stub collection leaves a cown it frees, stays bound to that core
over every continuation and never comes back into a registry, so no later
collection unlinks or frees it again. -/
theorem collected_stays_out {Adm : Trace W → Sys W → Label W → Prop} {tr : Trace W}
    {ls : List (Label W)} {tr' : Trace W} {s' : Sys W} (hs : Steps cfg Adm tr s ls tr' s')
    {c : CownId} {k : Fin W} (hb : (s.cownOf c).owningCore = some k)
    (hc : ∀ j, c ∉ (s.core j).cowns) :
    (s'.cownOf c).owningCore = some k ∧ ∀ j, c ∉ (s'.core j).cowns := by
  induction hs with
  | nil => exact ⟨hb, hc⟩
  | @cons tr s l ls tr' s' _ _ _ ih =>
    refine ih (next_owner cfg s l hb) fun j hj => ?_
    rcases next_cowns cfg s l j hj with h | h
    exacts [hc j h, by simp [hb] at h]

end Registries

/-- Core `0`'s registry holds cown `7`, bound to it, with no weak reference
left and popped in epoch `0`; its queue holds cown `5` and its token. -/
def stubStart : Sys 1 where
  core _ := ⟨[.cown 5, .token 0], [7], 1, 1, 0, 0, 1⟩
  worker := initWorker (Config.ring 0 false false)
  cownOf c := if c = 7 then ⟨some 0, .epochA, 0, some 0⟩ else ⟨none, .epochA, 1, none⟩

/-- Every epoch is outdated, so `collect_cown_stubs` frees cown `7`. -/
def collectAnswer : Answer := ⟨false, false, .notInLD, false, true, fun _ => true⟩

/-- The first step collects the sparse registry (`1 < 1 << 1`) and frees cown
`7`. -/
def collectRun : Trace 1 × Sys 1 :=
  runSteps (Config.ring 0 false false) [(0, collectAnswer)] ([], stubStart)

/-- After the collection, ten more steps pop, register and run cown `5`; cown
`7` stays out of the registry. -/
theorem collected_stays_out_after_collect :
    let cfg := Config.ring 0 false false
    let r := runSteps cfg (List.replicate 10 (0, rerunAnswer)) collectRun
    (stubStart.core 0).cowns = [7] ∧ (collectRun.2.cownOf 7).owningCore = some 0 ∧
    (∀ j, 7 ∉ (collectRun.2.core j).cowns) ∧
    Steps cfg anyStep collectRun.1 collectRun.2
      ((List.replicate 10 (0, rerunAnswer)).map fun p => .worker p.1 p.2) r.1 r.2 ∧
    (r.2.core 0).cowns = [5] ∧ (r.2.cownOf 7).owningCore = some 0 ∧ ∀ j, 7 ∉ (r.2.core j).cowns :=
  have hs := @steps_runSteps 1 _ anyStep _ (fun _ _ _ _ => trivial) _ _
  have hb : (collectRun.2.cownOf 7).owningCore = some 0 := by decide
  have hc : ∀ j, 7 ∉ (collectRun.2.core j).cowns := by decide
  ⟨rfl, hb, hc, hs, by decide, collected_stays_out _ _ hs hb hc⟩

/-! ## A core's registry belongs to its thread -/

section Owned

variable (cfg : Config W) (s : Sys W)

/-- No step but one of thread `k` writes core `k`'s registry or `total_cowns`;
a weak-reference drop on a cown of `k` adds one to `free_cowns`. -/
theorem next_registry_of_not_isOf (l : Label W) {k : Fin W} (hl : l.isOf k = false) :
    ((next cfg l s).1.core k).registry = (s.core k).registry ∨
      ((next cfg l s).1.core k).registry =
        ((s.core k).cowns, (s.core k).totalCowns, (s.core k).freeCowns + 1) := by
  cases l with
  | worker j a =>
    have hj : k ≠ j := fun h => by simp [Label.isOf, h] at hl
    refine .inl ?_
    simp only [next]
    rcases (workerStep_move cfg j a s).registry with ⟨-, -, hq⟩ | ⟨_, -, -, hq⟩ | ⟨_, -, -, -, hq⟩ <;>
      simp only [hq k, Function.update_noteq hj]
  | env e =>
    simp only [next]
    rcases envStep_cores e s with ⟨-, hq⟩ | ⟨d, k', -, -, -, hq⟩ <;>
      rw [Core.registry_eq_of_unqueued (hq k)]
    · exact .inl rfl
    · rw [Function.update_apply]
      split
      · subst k; exact .inr rfl
      · exact .inl rfl

/-- **A core's registry belongs to its thread.** Over any continuation in which
thread `k` takes no step, whatever the other threads (stealing and running
`k`'s cowns included) and the environment do, core `k`'s registry and
`total_cowns` are unchanged and `free_cowns` has not decreased. -/
theorem registry_owned {Adm : Trace W → Sys W → Label W → Prop} {tr : Trace W}
    {ls : List (Label W)} {tr' : Trace W} {s' : Sys W} (hs : Steps cfg Adm tr s ls tr' s')
    {k : Fin W} (hk : ∀ l ∈ ls, l.isOf k = false) :
    (s'.core k).cowns = (s.core k).cowns ∧ (s'.core k).totalCowns = (s.core k).totalCowns ∧
      (s.core k).freeCowns ≤ (s'.core k).freeCowns := by
  induction hs with
  | nil => exact ⟨rfl, rfl, le_rfl⟩
  | @cons tr s l ls tr' s' _ _ _ ih =>
    obtain ⟨i₁, i₂, i₃⟩ := ih fun l' hl' => hk l' (List.mem_cons_of_mem _ hl')
    rcases next_registry_of_not_isOf cfg s l (hk l (List.mem_cons_self _ _)) with h | h <;>
      simp only [Core.registry, Prod.mk.injEq] at h <;>
      exact ⟨i₁.trans h.1, i₂.trans h.2.1, by omega⟩

end Owned

/-- Two cores: core `0`'s queue is empty; core `1`'s holds cown `5` and its
token, and its registry holds cown `7`. -/
def stealStart : Sys 2 where
  core k := if k = 0 then ⟨[], [], 0, 0, 0, 0, 1⟩ else ⟨[.cown 5, .token 1], [7], 1, 0, 0, 0, 1⟩
  worker := initWorker (Config.ring 1 false false)
  cownOf c := if c = 7 then ⟨some 1, .epochA, 1, none⟩ else ⟨none, .epochA, 1, none⟩

/-- Thread `0` finds its queue empty, steals cown `5` from core `1` and
registers it on core `0`; core `1`'s registry is untouched. -/
theorem registry_owned_on_steal :
    let cfg := Config.ring 1 false false
    let r := runSteps cfg (List.replicate 10 (0, rerunAnswer)) ([], stealStart)
    Steps cfg anyStep [] stealStart ((List.replicate 10 (0, rerunAnswer)).map fun p => .worker p.1 p.2)
      r.1 r.2 ∧
    (∀ l ∈ (List.replicate 10 (0, rerunAnswer)).map (fun p => Label.worker p.1 p.2),
      l.isOf (1 : Fin 2) = false) ∧
    (r.2.core 0).cowns = [5] ∧
    ((r.2.core 1).cowns = (stealStart.core 1).cowns ∧
      (r.2.core 1).totalCowns = (stealStart.core 1).totalCowns ∧
      (stealStart.core 1).freeCowns ≤ (r.2.core 1).freeCowns) :=
  have hs := @steps_runSteps 2 _ anyStep _ (fun _ _ _ _ => trivial) _ _
  have hk : ∀ l ∈ (List.replicate 10 ((0 : Fin 2), rerunAnswer)).map (fun p => Label.worker p.1 p.2),
      l.isOf (1 : Fin 2) = false := by decide
  ⟨hs, hk, by decide, registry_owned _ _ hs hk⟩

/-! ## A stub is freed only when its epoch is outdated -/

/-- A collection drops from the registry only cowns it frees or leaks. -/
theorem collectCownStubs_removed {e : StubEnv} {state : ThreadState} {core : Core W} {c : CownId}
    (hc : c ∈ core.cowns) (hc' : c ∉ (collectCownStubs e state core).cowns) :
    e.freed c = true ∨ e.leaked c = true := by
  unfold collectCownStubs at hc'
  split at hc'
  · exact absurd hc hc'
  · simpa [Core.drain, Core.addCowns, hc, Bool.not_eq_true', or_iff_not_imp_left] using hc'

theorem register_cowns_of_mem {me : Fin W} {f : CownId → CownRec W} {core : Core W} {c d : CownId}
    (h : d ∈ core.cowns) : d ∈ (register me f core c).2.cowns := by
  unfold register; split
  · exact List.mem_cons_of_mem _ h
  · exact h

/-- **A stub leaves a registry only in its thread's stub collections.** In any
step of the scheduler, from any state, a cown that leaves core `k`'s registry
leaves it in a stub collection of thread `k`. At the head of its loop (lines
173–179) the cown has no weak reference left and an `epoch_when_popped` that is
unset or outdated by that step's `is_outdated` (lines 718–741). In its teardown
collection (line 319) the cown either still has a weak reference and leak
detection is on, so it is unlinked and not freed, or it is freed with an unset
or outdated epoch, with no weak reference left or with leak detection off. -/
theorem registry_leaves_only_outdated (cfg : Config W) (s : Sys W) (l : Label W) {k : Fin W}
    {c : CownId} (hc : c ∈ (s.core k).cowns) (hc' : c ∉ ((next cfg l s).1.core k).cowns) :
    ∃ a, l = .worker k a ∧
      (((s.worker k).pc = .top ∧ (s.cownOf c).weakCount = 0 ∧
          (stubEnv s.cownOf a.isOutdated false cfg.detectLeaks).outdated c = true) ∨
        ((s.worker k).pc = .phase2 ∧
          ((cfg.detectLeaks = true ∧ (s.cownOf c).weakCount ≠ 0) ∨
            ((s.cownOf c).weakCount = 0 ∨ cfg.detectLeaks = false) ∧
              (stubEnv s.cownOf a.isOutdated true cfg.detectLeaks).outdated c = true))) := by
  by_cases hl : l.isOf k = true
  · obtain ⟨a, rfl⟩ := Label.isOf_iff.mp hl
    refine ⟨a, rfl, ?_⟩
    simp only [next] at hc'
    rcases (workerStep_move cfg k a s).registry with ⟨-, -, hq⟩ | ⟨t, ht, -, hq⟩ |
      ⟨d, -, -, -, hq⟩ <;> rw [registry_cowns (hq k)] at hc'
    · exact absurd hc hc'
    · rw [Function.update_same] at hc'
      have hr := collectCownStubs_removed hc hc'
      rcases ht with ⟨hpc, rfl⟩ | ⟨hpc, rfl⟩
      · obtain ⟨h₁, h₂⟩ := freed_normal s.cownOf a.isOutdated cfg.detectLeaks c
        simp only [h₁, h₂, Bool.and_eq_true, beq_iff_eq] at hr
        exact .inl ⟨hpc, hr.resolve_right Bool.false_ne_true⟩
      · refine .inr ⟨hpc, ?_⟩
        cases hd : cfg.detectLeaks <;> simp_all [StubEnv.freed, StubEnv.leaked, stubEnv]
        exact hr.symm
    · rw [Function.update_same] at hc'
      exact absurd (register_cowns_of_mem hc) hc'
  · have h : ((next cfg l s).1.core k).cowns = (s.core k).cowns := by
      rcases next_registry_of_not_isOf cfg s l (Bool.eq_false_iff.mpr hl) with h | h <;>
        exact congrArg Prod.fst h
    exact absurd (h ▸ hc) hc'

/-- The first step from `stubStart` frees cown `7` at the head of the loop
(`collectRun`); the teardown collection at the end of `tornRun` frees cown `5`,
which still has a weak reference, leak detection being off. -/
theorem registry_leaves_only_outdated_on_collect :
    let cfg := Config.ring 0 false false
    7 ∈ (stubStart.core 0).cowns ∧
    7 ∉ ((next cfg (.worker 0 collectAnswer) stubStart).1.core 0).cowns ∧
    (∃ a, Label.worker (0 : Fin 1) collectAnswer = .worker 0 a ∧
      (((stubStart.worker 0).pc = .top ∧ (stubStart.cownOf 7).weakCount = 0 ∧
          (stubEnv stubStart.cownOf a.isOutdated false cfg.detectLeaks).outdated 7 = true) ∨
        ((stubStart.worker 0).pc = .phase2 ∧
          ((cfg.detectLeaks = true ∧ (stubStart.cownOf 7).weakCount ≠ 0) ∨
            ((stubStart.cownOf 7).weakCount = 0 ∨ cfg.detectLeaks = false) ∧
              (stubEnv stubStart.cownOf a.isOutdated true cfg.detectLeaks).outdated 7 = true)))) ∧
    5 ∈ (tornRun.2.core 0).cowns ∧
    5 ∉ ((next cfg (.worker 0 (answering .notInLD)) tornRun.2).1.core 0).cowns ∧
    ∃ a, Label.worker (0 : Fin 1) (answering .notInLD) = .worker 0 a ∧
      (((tornRun.2.worker 0).pc = .top ∧ (tornRun.2.cownOf 5).weakCount = 0 ∧
          (stubEnv tornRun.2.cownOf a.isOutdated false cfg.detectLeaks).outdated 5 = true) ∨
        ((tornRun.2.worker 0).pc = .phase2 ∧
          ((cfg.detectLeaks = true ∧ (tornRun.2.cownOf 5).weakCount ≠ 0) ∨
            ((tornRun.2.cownOf 5).weakCount = 0 ∨ cfg.detectLeaks = false) ∧
              (stubEnv tornRun.2.cownOf a.isOutdated true cfg.detectLeaks).outdated 5 = true))) :=
  have hc : 7 ∈ (stubStart.core 0).cowns := by decide
  have hc' : 7 ∉ ((next (Config.ring 0 false false) (.worker 0 collectAnswer) stubStart).1.core 0).cowns := by
    decide
  have ht : 5 ∈ (tornRun.2.core 0).cowns := by decide
  have ht' : 5 ∉ ((next (Config.ring 0 false false) (.worker 0 (answering .notInLD))
      tornRun.2).1.core 0).cowns := by decide
  ⟨hc, hc', registry_leaves_only_outdated _ _ _ hc hc', ht, ht',
    registry_leaves_only_outdated _ _ _ ht ht'⟩

/-! ## The loop ends only after `stop()` -/

/-- No step of a thread writes `running`, and only `steal`'s test of a cleared
`running` (line 378) leaves the loop. -/
theorem Move.running {cfg : Config W} {i : Fin W} {a : Answer} {s : Sys W} {w : Worker W}
    {s' : Sys W} {es : List (Event W)} (hm : Move cfg i a s w s' es) :
    (s'.worker i).running = w.running ∧
      ((s'.worker i).pc.pastLoop = true → w.pc.pastLoop = true ∨ w.running = false) := by
  cases hm <;> (try cases ‹LdCaller›) <;>
    simp_all [LdCaller.resume, Worker.enterScan, Worker.enterPrescan, Worker.ldStateChange,
      Pc.pastLoop]

/-- A thread past its loop has been stopped. -/
def ExitStopped (w : Worker W) : Prop := w.pc.pastLoop = true → w.running = false

theorem next_exitStopped {cfg : Config W} (s : Sys W) (h : ∀ j, ExitStopped (s.worker j))
    (l : Label W) (j : Fin W) : ExitStopped ((next cfg l s).1.worker j) := by
  cases l with
  | worker i a =>
    rcases eq_or_ne j i with rfl | hj
    · obtain ⟨hr, hx⟩ := (workerStep_move cfg j a s).running
      intro hpc
      rw [show (next cfg (.worker j a) s).1 = (workerStep cfg j a s).1 from rfl, hr]
      exact (hx hpc).elim (h j) id
    · simpa [next, workerStep_worker_ne cfg i a s hj] using h j
  | env e =>
    have hj := h j
    unfold ExitStopped at hj ⊢
    rcases envStep_worker e s j with h' | h' | h' | ⟨b, h'⟩ <;>
      simp only [next, h', Worker.wantLd_eq] <;> first | exact hj | simp

theorem exitStopped_reachable {cfg : Config W} {Adm : Trace W → Sys W → Label W → Prop}
    {s₀ : Sys W} {tr : Trace W} {s : Sys W} (hr : Reach cfg Adm s₀ tr s) (j : Fin W) :
    ExitStopped (s.worker j) := by
  induction hr generalizing j with
  | init h => simp [ExitStopped, h.worker j, initWorker, Pc.pastLoop]
  | step l _ _ _ ih => exact next_exitStopped _ ih l j

/-- **A thread leaves its loop only after `stop()`.** In every reachable state
of any run, a thread past its main loop (line 204), in teardown or done, has
`running` false: `steal` returns null only from its `while (running)` test, and
nothing but `stop()` clears `running` or sets it again. -/
theorem exit_only_after_stop {cfg : Config W} {Adm : Trace W → Sys W → Label W → Prop} {s₀ : Sys W}
    {tr : Trace W} {s : Sys W} (hr : Reach cfg Adm s₀ tr s) (i : Fin W)
    (hpc : (s.worker i).pc.pastLoop = true) : (s.worker i).running = false :=
  exitStopped_reachable hr i hpc

theorem stealStart_init : Init (Config.ring 1 false false) stealStart where
  worker _ := rfl
  nodup := by decide
  tokenHome := by decide
  serviced k := by revert k; decide

/-- `stop()` on thread `0`, whose queue is empty; six steps later it has left
its loop, ended teardown phase 1 and waits at the barrier for thread `1`. -/
theorem exit_only_after_stop_on_steal :
    let cfg := Config.ring 1 false false
    let s₁ := next cfg (.env (.stop 0)) stealStart
    let r := runSteps cfg (List.replicate 6 (0, rerunAnswer)) ([] ++ s₁.2, s₁.1)
    Reach cfg anyStep stealStart r.1 r.2 ∧ (r.2.worker 0).pc = .barrier ∧
      (r.2.worker 0).running = false :=
  have hr := reach_runSteps _ (fun _ _ _ _ => trivial)
    (.step (.env (.stop 0)) (.init stealStart_init) trivial trivial)
  ⟨hr, by decide, exit_only_after_stop hr 0 (by decide)⟩

end Verona.Rt
