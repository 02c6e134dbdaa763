import VeronaScheduler.Dispatch
import VeronaScheduler.Checkpoint

/- The registries of all cores in the interleaved scheduler (lines 171–179,
   317–321, 497–506, 688–771).

   `registry_inv_reachable` follows one core's registry alone, with the cown
   table changing only through that core. In the scheduler every thread shares
   the cown table: a `prerun` on another core binds a cown, the environment
   marks cowns and drops weak references. Here the registry invariant is lifted
   to every core of every reachable state of `Reach`. A step of one thread
   changes at most its own core's registry, through `register` or
   `collect_cown_stubs`, and writes the record of no cown in another core's
   registry (`RegInv.of_registry`, `RegInv.of_cownOf`).

   Teardown phase 2 collects in teardown mode (line 319), which frees or unlinks
   cowns that still have weak references and so leaves the counters wrong. What
   every core keeps in every reachable state is its registry without
   duplicates and bound to it; the counters are exact until its thread has made
   that collection (`HomeInv`), so the collection itself still passes the
   assertion `total_cowns == count` and does not wrap `total_cowns`.

   The one assumption is on the environment: a cown with no owning core is made
   runnable only while it has a weak reference (`LiveSchedules`). `prerun`
   counts a cown it registers in `total_cowns` and not in `free_cowns` (line
   505), which is right only for such a cown. -/
namespace Verona.Rt

variable {W : Nat}

/-- Core `k`'s registry and the shared cown table. -/
def Sys.home (s : Sys W) (k : Fin W) : Home W := ⟨s.core k, s.cownOf⟩

theorem Core.registry_eq_of_unqueued {c d : Core W} (h : c.unqueued = d.unqueued) :
    c.registry = d.registry := by
  have h' := congrArg Core.registry h
  exact h'

namespace RegInv

variable {me : Fin W} {c c' : Core W} {f f' : CownId → CownRec W}

/-- `RegInv` reads only the registry and its counters of the core. -/
theorem of_registry (hi : RegInv me ⟨c, f⟩) (h : c'.registry = c.registry) : RegInv me ⟨c', f⟩ := by
  simp only [Core.registry, Prod.mk.injEq] at h
  obtain ⟨h₁, h₂, h₃⟩ := h
  exact ⟨h₁ ▸ hi.nodup, h₁ ▸ hi.owner, h₁ ▸ h₂ ▸ hi.total, h₁ ▸ h₃ ▸ hi.free⟩

/-- `RegInv` reads only the owner and the weak count of the registry's cowns. -/
theorem of_cownOf (hi : RegInv me ⟨c, f⟩)
    (h : ∀ d ∈ c.cowns, (f' d).owningCore = (f d).owningCore ∧ (f' d).weakCount = (f d).weakCount) :
    RegInv me ⟨c, f'⟩ :=
  ⟨hi.nodup, fun d hd => (h d hd).1.trans (hi.owner d hd), hi.total,
    hi.free.trans (congrArg List.length (List.filter_congr fun d hd => by rw [(h d hd).2]))⟩

/-- `RegInv` holds of any cown table that agrees on the registry's cowns. -/
theorem of_eqOn (hi : RegInv me ⟨c, f⟩) (h : ∀ d ∈ c.cowns, f' d = f d) : RegInv me ⟨c, f'⟩ :=
  hi.of_cownOf fun d hd => by rw [h d hd]; exact ⟨rfl, rfl⟩

/-- A cown of core `me`'s registry is bound to `me`, so it is no unbound cown
and no cown of another core. -/
theorem ne_of_mem (hi : RegInv me ⟨c, f⟩) {d e : CownId} (hd : d ∈ c.cowns)
    (he : (f e).owningCore ≠ some me) : d ≠ e := by
  rintro rfl; exact he (hi.owner d hd)

end RegInv

/-! ## What a step writes of the cown table -/

section Table

variable {me : Fin W} {f : CownId → CownRec W} {core : Core W} {c d : CownId}

theorem register_apply_of_ne (h : d ≠ c) : (register me f core c).1 d = f d := by
  unfold register; split <;> simp [Function.update_noteq h]

theorem releaseWeak_apply_of_ne (h : d ≠ c) : (releaseWeak f core c).1 d = f d := by
  simp [releaseWeak, Function.update_noteq h]

theorem register_weakCount : ((register me f core c).1 d).weakCount = (f d).weakCount := by
  by_cases h : d = c
  · subst h; unfold register; split <;> simp
  · rw [register_apply_of_ne h]

theorem releaseWeak_owningCore : ((releaseWeak f core c).1 d).owningCore = (f d).owningCore := by
  by_cases h : d = c
  · subst h; simp [releaseWeak]
  · rw [releaseWeak_apply_of_ne h]

/-- A collection keeps a sublist of the registry. -/
theorem collectCownStubs_cowns_sublist (e : StubEnv) (state : ThreadState) :
    List.Sublist (collectCownStubs e state core).cowns core.cowns := by
  unfold collectCownStubs
  split
  · exact List.Sublist.refl _
  · simp [Core.drain, Core.addCowns]

end Table

section Step

variable (cfg : Config W) (s : Sys W)

/-- Only a weak-reference drop writes a weak count, and only of a bound cown. -/
theorem next_weakCount (l : Label W) {c : CownId} (h : (s.cownOf c).owningCore = none) :
    ((next cfg l s).1.cownOf c).weakCount = (s.cownOf c).weakCount := by
  cases l with
  | worker i a =>
    rcases (workerStep_move cfg i a s).registry with ⟨-, hf, -⟩ | ⟨-, -, hf, -⟩ |
      ⟨d, -, -, hf, -⟩ <;> simp only [next, hf, register_weakCount]
  | env e =>
    rcases envStep_cores e s with ⟨ho, -⟩ | ⟨d, k, -, hk, hf, -⟩
    · exact (ho c).2
    · rw [next, hf, releaseWeak_apply_of_ne]
      rintro rfl; simp [hk] at h

/-- An unbound cown was unbound before the step. -/
theorem next_owner_none (l : Label W) {c : CownId}
    (h : ((next cfg l s).1.cownOf c).owningCore = none) : (s.cownOf c).owningCore = none := by
  by_contra h'
  exact next_owner_ne_none cfg s l h' h

/-- No step but one of the environment makes a value queued or held. -/
theorem next_count_le {s : Sys W} (hs : ∀ i, SlotShape (s.worker i)) (l : Label W) (x : Item W) :
    (next cfg l s).1.count x ≤ s.count x + l.added.toList.count x := by
  have := @next_count W cfg s hs l x
  omega

end Step

/-! ## One core's registry, up to its teardown collection -/

/-- Whether the thread has made its teardown stub collection (line 319). -/
def Pc.pastPhase2 : Pc W → Bool
  | .release | .destroy | .finished => true
  | _ => false

/-- Core `me`'s registry holds each cown once, all bound to `me`; while `torn`
is false, before the teardown collection, its counters are exact too. -/
structure HomeInv (me : Fin W) (torn : Bool) (h : Home W) : Prop where
  nodup : h.core.cowns.Nodup
  owner : ∀ c ∈ h.core.cowns, (h.cownOf c).owningCore = some me
  reg : torn = false → RegInv me h

namespace HomeInv

variable {me : Fin W} {torn torn' : Bool} {h : Home W} {c c' : Core W} {f f' : CownId → CownRec W}

theorem of_regInv (hi : RegInv me h) : HomeInv me torn h := ⟨hi.nodup, hi.owner, fun _ => hi⟩

theorem mono (hi : HomeInv me torn h) (ht : torn' = false → torn = false) : HomeInv me torn' h :=
  ⟨hi.nodup, hi.owner, fun h' => hi.reg (ht h')⟩

theorem of_registry (hi : HomeInv me torn ⟨c, f⟩) (h : c'.registry = c.registry) :
    HomeInv me torn ⟨c', f⟩ := by
  have hl : c'.cowns = c.cowns := congrArg Prod.fst h
  exact ⟨hl ▸ hi.nodup, hl ▸ hi.owner, fun ht => (hi.reg ht).of_registry h⟩

theorem of_cownOf (hi : HomeInv me torn ⟨c, f⟩)
    (h : ∀ d ∈ c.cowns, (f' d).owningCore = (f d).owningCore ∧ (f' d).weakCount = (f d).weakCount) :
    HomeInv me torn ⟨c, f'⟩ :=
  ⟨hi.nodup, fun d hd => (h d hd).1.trans (hi.owner d hd), fun ht => (hi.reg ht).of_cownOf h⟩

theorem of_eqOn (hi : HomeInv me torn ⟨c, f⟩) (h : ∀ d ∈ c.cowns, f' d = f d) :
    HomeInv me torn ⟨c, f'⟩ :=
  hi.of_cownOf fun d hd => by rw [h d hd]; exact ⟨rfl, rfl⟩

/-- A cown of core `me`'s registry is bound to `me`, so it is no unbound cown
and no cown of another core. -/
theorem ne_of_mem (hi : HomeInv me torn ⟨c, f⟩) {d e : CownId} (hd : d ∈ c.cowns)
    (he : (f e).owningCore ≠ some me) : d ≠ e := by
  rintro rfl; exact he (hi.owner d hd)

/-- A collection in either mode keeps the registry without duplicates and
bound; one in normal mode keeps the counters exact. -/
theorem collect (hi : HomeInv me torn h) (isOutdated : Nat → Bool) (t dl : Bool)
    (state : ThreadState) (ht : torn = false → t = false) :
    HomeInv me torn ⟨collectCownStubs (stubEnv h.cownOf isOutdated t dl) state h.core, h.cownOf⟩ := by
  have hs := @collectCownStubs_cowns_sublist _ h.core (stubEnv h.cownOf isOutdated t dl) state
  refine ⟨hi.nodup.sublist hs, fun d hd => hi.owner d (hs.subset hd), fun h' => ?_⟩
  obtain rfl := ht h'
  exact regInv_collect (hi.reg h') isOutdated dl state

theorem release (hi : HomeInv me torn h) {c : CownId} (hc : c ∈ h.core.cowns)
    (hw : 0 < (h.cownOf c).weakCount) :
    HomeInv me torn ⟨(releaseWeak h.cownOf h.core c).2, (releaseWeak h.cownOf h.core c).1⟩ :=
  ⟨hi.nodup, fun d hd => (@releaseWeak_owningCore _ h.cownOf h.core c d).trans (hi.owner d hd),
    fun h' => regInv_release (hi.reg h') hc hw⟩

end HomeInv

/-! ## The registries of every core -/

/-- The environment makes a cown with no owning core runnable only while it has
a weak reference: the one the scheduler is handed with it. -/
def LiveSchedules : Trace W → Sys W → Label W → Prop := fun _ s l =>
  ∀ c, l.added = some (.cown c) → (s.cownOf c).owningCore = none → 0 < (s.cownOf c).weakCount

/-- Every core's registry sound up to its thread's teardown collection, and a
weak reference on every unbound cown that is queued or held. -/
structure RegsInv (s : Sys W) : Prop where
  home : ∀ k, HomeInv k (s.worker k).pc.pastPhase2 (s.home k)
  live : ∀ c, 0 < s.count (.cown c) → (s.cownOf c).owningCore = none → 0 < (s.cownOf c).weakCount

theorem count_pos_of_held {s : Sys W} {i : Fin W} {x : Item W} (h : (s.worker i).cown = some x) :
    0 < s.count x :=
  Multiset.count_pos.mpr (Multiset.mem_of_le (le_add_left le_rfl |>.trans (queue_add_held_le s i i))
    (mem_held h))

section Step

variable (cfg : Config W) {s : Sys W}

/-- The only move that takes a thread past phase 2 is its move from phase 2. -/
theorem Move.pastPhase2 {i : Fin W} {a : Answer} {w : Worker W} {s' : Sys W} {es : List (Event W)}
    (hm : Move cfg i a s w s' es) (h : (s'.worker i).pc.pastPhase2 = false) :
    w.pc.pastPhase2 = false ∧ w.pc ≠ .phase2 := by
  cases hm
  case release => split at h <;> simp_all [Pc.pastPhase2]
  all_goals simp_all [Pc.pastPhase2]

theorem workerStep_homeInv (i : Fin W) (a : Answer) (hi : RegsInv s) (k : Fin W) :
    HomeInv k ((workerStep cfg i a s).1.worker k).pc.pastPhase2 ((workerStep cfg i a s).1.home k) := by
  have hm := workerStep_move cfg i a s
  have hpast : ((workerStep cfg i a s).1.worker k).pc.pastPhase2 = false →
      (s.worker k).pc.pastPhase2 = false ∧ (k = i → (s.worker i).pc ≠ .phase2) := by
    rcases eq_or_ne k i with rfl | hk
    · exact fun h => ⟨(Move.pastPhase2 cfg hm h).1, fun _ => (Move.pastPhase2 cfg hm h).2⟩
    · rw [hm.worker_ne hk]; exact fun h => ⟨h, fun e => absurd e hk⟩
  have hI := (hi.home k).mono fun h => (hpast h).1
  rcases hm.registry with ⟨-, hf, hreg⟩ | ⟨t, ht, hf, hreg⟩ | ⟨c, hpc, hc, hf, hreg⟩ <;>
    refine HomeInv.of_registry ?_ (hreg k) <;> rw [hf]
  · exact hI
  · rcases eq_or_ne k i with rfl | hk
    · rw [Function.update_same]
      refine hI.collect _ _ _ _ fun h => ?_
      rcases ht with ⟨-, rfl⟩ | ⟨hpc, -⟩
      exacts [rfl, absurd hpc ((hpast h).2 rfl)]
    · rw [Function.update_noteq hk]; exact hI
  · have hR : RegInv i (s.home i) := (hi.home i).reg (by rw [hpc]; rfl)
    by_cases ho : (s.cownOf c).owningCore = none
    · rcases eq_or_ne k i with rfl | hk
      · rw [Function.update_same]
        exact .of_regInv (regInv_register hR ho (hi.live c (count_pos_of_held hc) ho))
      · rw [Function.update_noteq hk]
        exact hI.of_eqOn fun d hd => register_apply_of_ne (hI.ne_of_mem hd (by simp [ho]))
    · simp only [register, ho, if_false, Function.update_eq_self]
      exact hI

theorem envStep_homeInv (e : EnvAction W) (hi : RegsInv s) (hl : Enabled (.env e) s) (k : Fin W) :
    HomeInv k ((envStep e s).1.worker k).pc.pastPhase2 ((envStep e s).1.home k) := by
  rw [envStep_pc]
  rcases envStep_cores e s with ⟨ho, h⟩ | ⟨c, k', rfl, hk', hf, h⟩
  · exact ((hi.home k).of_cownOf fun d _ => ho d).of_registry (Core.registry_eq_of_unqueued (h k))
  · refine HomeInv.of_registry ?_ (Core.registry_eq_of_unqueued (h k))
    rw [hf]
    obtain ⟨hw, k'', hk'', hm⟩ := hl
    obtain rfl : k'' = k' := Option.some.inj (hk''.symm.trans hk')
    rcases eq_or_ne k k'' with rfl | hne
    · rw [Function.update_same]; exact (hi.home k).release hm hw
    · rw [Function.update_noteq hne]
      exact (hi.home k).of_eqOn fun d hd =>
        releaseWeak_apply_of_ne ((hi.home k).ne_of_mem hd (by simp [hk'', Ne.symm hne]))

/-- **One step of the registries**: any enabled step the environment assumption
admits keeps every core's registry sound up to its teardown collection, and a
weak reference on every unbound runnable cown. -/
theorem next_regsInv {tr : Trace W} (hi : RegsInv s) (hs : ∀ i, SlotShape (s.worker i)) {l : Label W}
    (hl : Enabled l s) (ha : LiveSchedules tr s l) : RegsInv (next cfg l s).1 := by
  refine ⟨fun k => ?_, fun c hc ho => ?_⟩
  · cases l with
    | worker i a => exact workerStep_homeInv cfg i a hi k
    | env e => exact envStep_homeInv e hi hl k
  · have ho₀ := next_owner_none cfg s l ho
    rw [next_weakCount cfg s l ho₀]
    rcases Nat.eq_zero_or_pos (s.count (.cown c)) with h0 | h0
    · have hle := next_count_le cfg hs l (.cown c)
      rcases hla : l.added with _ | y
      · simp [hla] at hle; omega
      · obtain rfl : y = .cown c := by
          by_contra hy
          simp [hla, Ne.symm hy] at hle; omega
        exact ha c hla ho₀
    · exact hi.live c h0 ho₀

end Step

section Runs

variable {cfg : Config W} {s₀ : Sys W}

theorem regsInv_reachable (h₀ : RegsInv s₀) {tr : Trace W} {s : Sys W}
    (hr : Reach cfg LiveSchedules s₀ tr s) : RegsInv s := by
  induction hr with
  | init _ => exact h₀
  | step l hr hl ha ih => exact next_regsInv cfg ih (conserved_reachable hr).shape hl ha

/-- **The registries stay sound in the whole scheduler.** With any number of
threads in any interleaving, and unbound cowns made runnable only while they
have a weak reference, in every reachable state each core's registry holds each
cown once, all bound to that core, and no cown is in two cores' registries.
Until its thread has made its teardown collection (line 319), a core also has
the registry invariant (`total_cowns` its length, `free_cowns` the number of its
cowns with no weak reference), so a stub collection on it, whatever
`is_outdated` answers, finds `total_cowns == count` and does not wrap
`total_cowns` in either mode, nor `free_cowns` in normal mode (lines 763–765). -/
theorem registries_sound (h₀ : RegsInv s₀) {tr : Trace W} {s : Sys W}
    (hr : Reach cfg LiveSchedules s₀ tr s) :
    (∀ k, (s.core k).cowns.Nodup ∧ ∀ c ∈ (s.core k).cowns, (s.cownOf c).owningCore = some k) ∧
    (∀ j k c, c ∈ (s.core j).cowns → c ∈ (s.core k).cowns → j = k) ∧
    ∀ k, (s.worker k).pc.pastPhase2 = false → RegInv k (s.home k) ∧
      ∀ (isOutdated : Nat → Bool) (duringTeardown : Bool),
        let removed := ((s.core k).cowns.filter
          (stubEnv s.cownOf isOutdated duringTeardown cfg.detectLeaks).freed).length
        (s.core k).totalCowns = (s.core k).cowns.length ∧ removed ≤ (s.core k).totalCowns ∧
          (duringTeardown = false → removed ≤ (s.core k).freeCowns) := by
  have hi := (regsInv_reachable h₀ hr).home
  refine ⟨fun k => ⟨(hi k).nodup, (hi k).owner⟩, fun j k c hj hk => ?_, fun k hk => ?_⟩
  · simpa using ((hi j).owner c hj).symm.trans ((hi k).owner c hk)
  · exact ⟨(hi k).reg hk, fun isOutdated td => ((hi k).reg hk).removed_le isOutdated td _⟩

/-- One core, whose queue holds cown `5`, with a weak reference on every cown. -/
def regStart : Sys 1 where
  core _ := ⟨[.cown 5], [], 0, 0, 0, 0, 1⟩
  worker := initWorker (Config.ring 0 false false)
  cownOf _ := ⟨none, .epochA, 1, none⟩

theorem regStart_init : Init (Config.ring 0 false false) regStart where
  worker _ := rfl
  nodup := by decide
  tokenHome _ _ h := by simp [regStart] at h
  serviced _ := rfl

theorem regsInv_regStart : RegsInv regStart :=
  ⟨fun k => .of_regInv (regInv_init k ⟨rfl, rfl, rfl⟩), fun _ _ _ => Nat.one_pos⟩

/-- Eight steps of the thread, which pops cown `5`, registers it and runs it
(`run` returns false); `stop()`; six steps to the end of teardown phase 1 and
through the barrier, to the teardown collection. -/
def tornRun : Trace 1 × Sys 1 :=
  let cfg := Config.ring 0 false false
  let p := runSteps cfg (List.replicate 8 (0, answering .notInLD)) ([], regStart)
  runSteps cfg (List.replicate 6 (0, answering .notInLD))
    (p.1 ++ (next cfg (.env (.stop 0)) p.2).2, (next cfg (.env (.stop 0)) p.2).1)

theorem tornRun_reach :
    Reach (Config.ring 0 false false) LiveSchedules regStart tornRun.1 tornRun.2 :=
  have hw : ∀ (ls : List (Fin 1 × Answer)), ∀ p ∈ ls, ∀ (tr : Trace 1) (s : Sys 1),
      LiveSchedules tr s (.worker p.1 p.2) := fun _ _ _ _ _ _ h => by simp [Label.added] at h
  reach_runSteps _ (hw _)
    (.step (.env (.stop 0)) (reach_runSteps _ (hw _) (.init regStart_init)) trivial
      fun _ h => by simp [Label.added, EnvAction.added] at h)

/-- Thread `0` is about to make its teardown collection with cown `5` still
registered and weakly referenced: the registry is sound, and the collection
removes one cown, within `total_cowns`. Made, it frees cown `5` without leak
detection and `free_cowns -= 1` wraps, after which the thread is past phase 2. -/
theorem registries_sound_through_teardown :
    let cfg := Config.ring 0 false false
    let s' := (next cfg (.worker 0 (answering .notInLD)) tornRun.2).1
    RegsInv regStart ∧ Reach cfg LiveSchedules regStart tornRun.1 tornRun.2 ∧
    (tornRun.2.worker 0).pc = .phase2 ∧ (tornRun.2.core 0).cowns = [5] ∧
    (tornRun.2.cownOf 5).weakCount = 1 ∧
    (s'.worker 0).pc.pastPhase2 = true ∧ (s'.core 0).cowns = [] ∧
    (s'.core 0).freeCowns = 2 ^ 64 - 1 ∧
    (∀ k, (tornRun.2.core k).cowns.Nodup ∧
      ∀ c ∈ (tornRun.2.core k).cowns, (tornRun.2.cownOf c).owningCore = some k) ∧
    (∀ j k c, c ∈ (tornRun.2.core j).cowns → c ∈ (tornRun.2.core k).cowns → j = k) ∧
    ∀ k, (tornRun.2.worker k).pc.pastPhase2 = false → RegInv k (tornRun.2.home k) ∧
      ∀ (isOutdated : Nat → Bool) (duringTeardown : Bool),
        let removed := ((tornRun.2.core k).cowns.filter
          (stubEnv tornRun.2.cownOf isOutdated duringTeardown cfg.detectLeaks).freed).length
        (tornRun.2.core k).totalCowns = (tornRun.2.core k).cowns.length ∧
          removed ≤ (tornRun.2.core k).totalCowns ∧
          (duringTeardown = false → removed ≤ (tornRun.2.core k).freeCowns) :=
  ⟨regsInv_regStart, tornRun_reach, by decide, by decide, by decide, by decide, by decide,
    by decide, registries_sound regsInv_regStart tornRun_reach⟩

end Runs

end Verona.Rt
