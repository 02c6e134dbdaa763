import VeronaScheduler.StubList

/- The core registry: registration in `prerun` (lines 497–506), stub
   collection (`collect_cown_stubs`, lines 688–771), and the environment step in
   which a cown loses its last weak reference.

   The registry is a list of cowns (`Core.cowns`) with two counters,
   `total_cowns` and `free_cowns`. `collectCownStubs` is the function of the
   source from its state guard to its counter updates; the walk in the middle is
   taken at list level, as `collect_cown_stubs_walk` shows the pointer walk
   computes it. This file proves

   1. `registry_inv_reachable`: over registrations (of cowns with no owning core
      and a weak reference left), normal-mode collections (with leak detection on
      or off) and weak-count drops, the registry holds each cown once, all with
      this core as owner, `total_cowns` is its length and `free_cowns` the number
      of its cowns with no weak reference; every collection from such a state, in
      either mode, finds `total_cowns == count` (line 763) and does not wrap
      `total_cowns`, and in normal mode does not wrap `free_cowns` either
      (`registry_sound`);
   2. `teardown_breaks_registry`: one teardown-mode collection breaks the
      counters: without leak detection it frees a cown that still has a weak
      reference and wraps `free_cowns`, with leak detection it unlinks the cown
      and leaves `total_cowns` above the registry's length. -/
namespace Verona.Rt

variable {W : Nat}

namespace Core

/-- Modelled from the spec: `Core::add_cown`, a cown pushed onto the registry. -/
def addCown (core : Core W) (c : CownId) : Core W := { core with cowns := c :: core.cowns }

/-- Modelled from the spec: `Core::add_cowns(first, last)`, a list spliced onto the
registry. -/
def addCowns (core : Core W) (l : List CownId) : Core W := { core with cowns := l ++ core.cowns }

/-- Modelled from the spec: `Core::drain`, the whole registry handed out as a list. -/
def drain (core : Core W) : List CownId × Core W := (core.cowns, { core with cowns := [] })

end Core

/-- The states in which `collect_cown_stubs` returns at once (lines 695–702). -/
def stubsGuarded : ThreadState → Bool
  | .reallyDoneConfirm | .finished => true
  | _ => false

/-- What a collection reads of the cowns, from the cown table. -/
def stubEnv (cownOf : CownId → CownRec W) (isOutdated : Nat → Bool)
    (duringTeardown detectLeaks : Bool) : StubEnv :=
  { weakCount := fun c => (cownOf c).weakCount
    epochWhenPopped := fun c => (cownOf c).epochWhenPopped
    isOutdated, duringTeardown, detectLeaks }

/-- `collect_cown_stubs<during_teardown>()` on the registry: the state guard, the
walk (`collect_cown_stubs_walk`: the cowns neither freed nor leaked go back by
`add_cowns`), then `free_cowns -= removed_count; total_cowns -= removed_count`. -/
def collectCownStubs (e : StubEnv) (state : ThreadState) (core : Core W) : Core W :=
  if stubsGuarded state then core
  else
    let (L, core) := core.drain
    let core := core.addCowns (L.filter fun c => !e.freed c && !e.leaked c)
    let removed := (L.filter e.freed).length
    { core with
      freeCowns := wrapSub core.freeCowns removed
      totalCowns := wrapSub core.totalCowns removed }

/-- Lines 499–506 of `prerun`: a cown with no owning core is bound to this one,
added to the registry and counted. -/
def register (me : Fin W) (cownOf : CownId → CownRec W) (core : Core W) (c : CownId) :
    (CownId → CownRec W) × Core W :=
  if (cownOf c).owningCore = none then
    (Function.update cownOf c { cownOf c with owningCore := some me },
      { core.addCown c with totalCowns := core.totalCowns + 1 })
  else (cownOf, core)

/-- The environment step of §3's stub lifecycle: a registered cown loses its last
weak reference, and its core's `free_cowns` grows by one. -/
def releaseWeak (cownOf : CownId → CownRec W) (core : Core W) (c : CownId) :
    (CownId → CownRec W) × Core W :=
  (Function.update cownOf c { cownOf c with weakCount := 0 },
    { core with freeCowns := core.freeCowns + 1 })

/-- What the registry functions write of a core: the registry and its two
counters. -/
def Core.registry (c : Core W) : List CownId × Nat × Nat := (c.cowns, c.totalCowns, c.freeCowns)

/-- The registry functions leave the run queue alone. -/
@[simp] theorem collectCownStubs_q (e : StubEnv) (state : ThreadState) (core : Core W) :
    (collectCownStubs e state core).q = core.q := by
  unfold collectCownStubs; split <;> rfl

@[simp] theorem register_q (me : Fin W) (cownOf : CownId → CownRec W) (core : Core W) (c : CownId) :
    (register me cownOf core c).2.q = core.q := by
  unfold register; split <;> rfl

@[simp] theorem releaseWeak_q (cownOf : CownId → CownRec W) (core : Core W) (c : CownId) :
    (releaseWeak cownOf core c).2.q = core.q := rfl

/-- Nor do they touch the progress counter or `servicing_threads`. -/
@[simp] theorem collectCownStubs_progressCounter (e : StubEnv) (state : ThreadState) (core : Core W) :
    (collectCownStubs e state core).progressCounter = core.progressCounter := by
  unfold collectCownStubs; split <;> rfl

@[simp] theorem collectCownStubs_servicingThreads (e : StubEnv) (state : ThreadState)
    (core : Core W) : (collectCownStubs e state core).servicingThreads = core.servicingThreads := by
  unfold collectCownStubs; split <;> rfl

@[simp] theorem register_progressCounter (me : Fin W) (cownOf : CownId → CownRec W) (core : Core W)
    (c : CownId) : (register me cownOf core c).2.progressCounter = core.progressCounter := by
  unfold register; split <;> rfl

@[simp] theorem register_servicingThreads (me : Fin W) (cownOf : CownId → CownRec W)
    (core : Core W) (c : CownId) :
    (register me cownOf core c).2.servicingThreads = core.servicingThreads := by
  unfold register; split <;> rfl

/-! ## Runs of one core's registry -/

/-- A core's registry and the cown table. -/
structure Home (W : Nat) where
  core : Core W
  cownOf : CownId → CownRec W

/-- One step on core `me`'s registry. Collections take any `is_outdated`, any
state and either leak-detection mode; teardown-mode ones only if `teardown`. -/
inductive RegStep (me : Fin W) (teardown : Bool) : Home W → Home W → Prop
  | register (h : Home W) (c : CownId) (hc : (h.cownOf c).owningCore = none)
      (hw : 0 < (h.cownOf c).weakCount) :
      RegStep me teardown h ⟨(register me h.cownOf h.core c).2, (register me h.cownOf h.core c).1⟩
  | collect (h : Home W) (isOutdated : Nat → Bool) (duringTeardown detectLeaks : Bool)
      (state : ThreadState) (ht : duringTeardown = true → teardown = true) :
      RegStep me teardown h
        ⟨collectCownStubs (stubEnv h.cownOf isOutdated duringTeardown detectLeaks) state h.core,
          h.cownOf⟩
  | release (h : Home W) (c : CownId) (hc : c ∈ h.core.cowns) (hw : 0 < (h.cownOf c).weakCount) :
      RegStep me teardown h ⟨(releaseWeak h.cownOf h.core c).2, (releaseWeak h.cownOf h.core c).1⟩

/-- The registry before the worker starts: empty, both counters zero. -/
def Home.Init (h : Home W) : Prop :=
  h.core.cowns = [] ∧ h.core.totalCowns = 0 ∧ h.core.freeCowns = 0

/-- The states reachable from an initial one. -/
inductive RegReach (me : Fin W) (teardown : Bool) : Home W → Prop
  | init (h : Home W) : h.Init → RegReach me teardown h
  | step {h h' : Home W} : RegReach me teardown h → RegStep me teardown h h' →
      RegReach me teardown h'

/-- The registry invariant: each cown once, all owned by this core, and both counters exact. -/
structure RegInv (me : Fin W) (h : Home W) : Prop where
  nodup : h.core.cowns.Nodup
  owner : ∀ c ∈ h.core.cowns, (h.cownOf c).owningCore = some me
  total : h.core.totalCowns = h.core.cowns.length
  free : h.core.freeCowns = (h.core.cowns.filter fun c => (h.cownOf c).weakCount == 0).length

theorem regInv_init (me : Fin W) {h : Home W} (hi : h.Init) : RegInv me h := by
  obtain ⟨hc, ht, hf⟩ := hi
  exact ⟨by simp [hc], by simp [hc], by simp [hc, ht], by simp [hc, hf]⟩

/-- Rewriting the record of a cown off the list leaves any filter over it alone. -/
theorem filter_update_off {l : List CownId} {c : CownId} (hc : c ∉ l)
    (tab : CownId → CownRec W) (r : CownRec W) (g : CownRec W → Bool) :
    l.filter (fun x => g (Function.update tab c r x)) = l.filter (fun x => g (tab x)) :=
  List.filter_congr fun x hx => by rw [Function.update_noteq (by rintro rfl; exact hc hx)]

theorem regInv_register {me : Fin W} {h : Home W} {c : CownId}
    (hi : RegInv me h) (hc : (h.cownOf c).owningCore = none) (hw : 0 < (h.cownOf c).weakCount) :
    RegInv me ⟨(register me h.cownOf h.core c).2, (register me h.cownOf h.core c).1⟩ := by
  obtain ⟨hnd, ho, ht, hf⟩ := hi
  have hcn : c ∉ h.core.cowns := fun m => by simp [ho c m] at hc
  simp only [register, hc, if_true, Core.addCown]
  refine ⟨List.nodup_cons.mpr ⟨hcn, hnd⟩, ?_, by simp [ht], ?_⟩
  · intro x hx
    dsimp only at hx ⊢
    rcases List.mem_cons.mp hx with rfl | hmem
    · simp
    · rw [Function.update_noteq (by rintro rfl; exact hcn hmem)]
      exact ho x hmem
  · simp only [List.filter_cons, Function.update_same, hf,
      filter_update_off hcn h.cownOf _ (fun r => r.weakCount == 0)]
    simp [Nat.pos_iff_ne_zero.mp hw]

theorem regInv_release {me : Fin W} {h : Home W} {c : CownId}
    (hi : RegInv me h) (hc : c ∈ h.core.cowns) (hw : 0 < (h.cownOf c).weakCount) :
    RegInv me ⟨(releaseWeak h.cownOf h.core c).2, (releaseWeak h.cownOf h.core c).1⟩ := by
  obtain ⟨hnd, ho, ht, hf⟩ := hi
  obtain ⟨l₁, l₂, hl⟩ := List.append_of_mem hc
  have hnd' := hl ▸ hnd
  have h₁ : c ∉ l₁ := fun m => (List.nodup_append.mp hnd').2.2 m (List.mem_cons_self c l₂)
  have h₂ : c ∉ l₂ := (List.nodup_cons.mp (List.nodup_append.mp hnd').2.1).1
  refine ⟨hnd, fun x hx => ?_, ht, ?_⟩
  · by_cases e : x = c
    · subst e; simpa [releaseWeak] using ho x hx
    · simpa [releaseWeak, Function.update_noteq e] using ho x hx
  · simp only [releaseWeak, hf, hl, List.filter_append, List.filter_cons, Function.update_same,
      filter_update_off h₁ h.cownOf _ (fun r => r.weakCount == 0),
      filter_update_off h₂ h.cownOf _ (fun r => r.weakCount == 0)]
    simp [Nat.pos_iff_ne_zero.mp hw]
    omega

/-- In normal mode a freed cown has no weak reference left, and none is leaked. -/
theorem freed_normal (cownOf : CownId → CownRec W) (isOutdated : Nat → Bool) (dl : Bool)
    (c : CownId) :
    (stubEnv cownOf isOutdated false dl).freed c = ((cownOf c).weakCount == 0 &&
      (stubEnv cownOf isOutdated false dl).outdated c) ∧
    (stubEnv cownOf isOutdated false dl).leaked c = false := by
  simp [StubEnv.freed, StubEnv.leaked, stubEnv]

theorem regInv_collect {me : Fin W} {h : Home W} (hi : RegInv me h) (isOutdated : Nat → Bool)
    (dl : Bool) (state : ThreadState) :
    RegInv me ⟨collectCownStubs (stubEnv h.cownOf isOutdated false dl) state h.core, h.cownOf⟩ := by
  unfold collectCownStubs
  split
  · exact hi
  obtain ⟨hnd, ho, ht, hf⟩ := hi
  set e := stubEnv h.cownOf isOutdated false dl
  set L := h.core.cowns
  have hkeep : L.filter (fun c => !e.freed c && !e.leaked c) = L.filter (fun c => !e.freed c) :=
    List.filter_congr fun c _ => by simp [(freed_normal h.cownOf isOutdated dl c).2]
  have hsplit := L.length_eq_length_filter_add e.freed
  have hfree : (L.filter fun c => (h.cownOf c).weakCount == 0).length =
      (L.filter e.freed).length +
        ((L.filter fun c => !e.freed c).filter fun c => (h.cownOf c).weakCount == 0).length := by
    rw [List.filter_filter, (L.filter fun c => (h.cownOf c).weakCount == 0).length_eq_length_filter_add
      e.freed, List.filter_filter, List.filter_filter]
    congr 2 <;> apply List.filter_congr <;> intro c _ <;>
      cases hc : e.freed c <;> simp_all [(freed_normal h.cownOf isOutdated dl c).1]
  simp only [Core.drain, Core.addCowns, List.append_nil, hkeep]
  refine ⟨hnd.filter _, fun c hc => ho c (List.mem_of_mem_filter hc), ?_, ?_⟩
  · simp only [ht, wrapSub_of_le (List.length_filter_le _ _)]
    omega
  · simp only [hf, hfree, wrapSub_of_le (Nat.le_add_right _ _)]
    omega

/-- From a sound registry a collection in either mode finds `total_cowns == count`
and does not wrap `total_cowns`; one in normal mode frees only cowns counted in
`free_cowns`. -/
theorem RegInv.removed_le {me : Fin W} {h : Home W} (hi : RegInv me h) (isOutdated : Nat → Bool)
    (duringTeardown detectLeaks : Bool) :
    let removed := (h.core.cowns.filter
      (stubEnv h.cownOf isOutdated duringTeardown detectLeaks).freed).length
    h.core.totalCowns = h.core.cowns.length ∧ removed ≤ h.core.totalCowns ∧
      (duringTeardown = false → removed ≤ h.core.freeCowns) := by
  refine ⟨hi.total, hi.total ▸ List.length_filter_le _ _, ?_⟩
  rintro rfl
  rw [hi.free]
  refine List.Sublist.length_le (List.monotone_filter_right _ fun c hc => ?_)
  simp only [(freed_normal h.cownOf isOutdated detectLeaks c).1, Bool.and_eq_true] at hc
  exact hc.1

theorem regInv_step {me : Fin W} {h h' : Home W} (hi : RegInv me h)
    (hs : RegStep me false h h') : RegInv me h' := by
  cases hs with
  | register c hc hw => exact regInv_register hi hc hw
  | collect isOutdated td dl state ht =>
    cases td with
    | false => exact regInv_collect hi isOutdated dl state
    | true => cases ht rfl
  | release c hc hw => exact regInv_release hi hc hw

theorem registry_inv_reachable {me : Fin W} {h : Home W} (hr : RegReach me false h) :
    RegInv me h := by
  induction hr with
  | init h hi => exact regInv_init me hi
  | step _ hs ih => exact regInv_step ih hs

/-- An empty registry, and a cown table in which every cown still has a weak
reference and was never popped. -/
def leakyHome : Home 1 :=
  ⟨⟨[], [], 0, 0, 0, 0, 1⟩, fun _ => ⟨none, .epochA, 1, none⟩⟩

/-- **The registry is sound up to teardown.** In every state reached by
registrations, normal-mode collections and weak-count drops, the registry
invariant holds; a collection from there, in either mode, passes the assertion
`total_cowns == count` and removes no more than `total_cowns`, and in normal mode
no more than `free_cowns`. -/
theorem registry_sound {me : Fin W} {h : Home W} (hr : RegReach me false h) :
    RegInv me h ∧ ∀ (isOutdated : Nat → Bool) (duringTeardown detectLeaks : Bool),
      let removed := (h.core.cowns.filter
        (stubEnv h.cownOf isOutdated duringTeardown detectLeaks).freed).length
      h.core.totalCowns = h.core.cowns.length ∧ removed ≤ h.core.totalCowns ∧
        (duringTeardown = false → removed ≤ h.core.freeCowns) :=
  have hi := registry_inv_reachable hr
  ⟨hi, hi.removed_le⟩

theorem registry_sound_after_register :
    let h : Home 1 := ⟨(register 0 leakyHome.cownOf leakyHome.core 0).2,
      (register 0 leakyHome.cownOf leakyHome.core 0).1⟩
    RegReach 0 false h ∧ RegInv 0 h ∧ ∀ (isOutdated : Nat → Bool) (duringTeardown detectLeaks : Bool),
      let removed := (h.core.cowns.filter
        (stubEnv h.cownOf isOutdated duringTeardown detectLeaks).freed).length
      h.core.totalCowns = h.core.cowns.length ∧ removed ≤ h.core.totalCowns ∧
        (duringTeardown = false → removed ≤ h.core.freeCowns) :=
  have hr : RegReach 0 false _ := .step (.init leakyHome ⟨rfl, rfl, rfl⟩) (.register leakyHome 0 rfl (by decide))
  ⟨hr, registry_sound hr⟩

/-- The registry after registering cown `0` and one teardown-mode collection with
leak detection off or on. -/
def tornDown (detectLeaks : Bool) : Home 1 :=
  ⟨collectCownStubs (stubEnv (register 0 leakyHome.cownOf leakyHome.core 0).1 (fun _ => true)
      true detectLeaks) .notInLD (register 0 leakyHome.cownOf leakyHome.core 0).2,
    (register 0 leakyHome.cownOf leakyHome.core 0).1⟩

theorem tornDown_reachable (detectLeaks : Bool) : RegReach 0 true (tornDown detectLeaks) :=
  .step (.step (.init leakyHome ⟨rfl, rfl, rfl⟩) (.register leakyHome 0 rfl (by decide)))
    (.collect _ (fun _ => true) true detectLeaks .notInLD fun _ => rfl)

/-- **Teardown breaks the counters.** Register a cown that keeps a weak reference,
then collect in teardown mode: without leak detection the cown is freed and
`free_cowns -= 1` wraps from `0`; with leak detection it is unlinked, not counted,
and `total_cowns` stays `1` over an empty registry. -/
theorem teardown_breaks_registry :
    RegReach 0 true (tornDown false) ∧ (tornDown false).core.cowns = [] ∧
      (tornDown false).core.freeCowns = 2 ^ 64 - 1 ∧ ¬ RegInv 0 (tornDown false) ∧
    RegReach 0 true (tornDown true) ∧ (tornDown true).core.cowns = [] ∧
      (tornDown true).core.totalCowns = 1 ∧ ¬ RegInv 0 (tornDown true) :=
  ⟨tornDown_reachable false, by decide, by decide, fun hi => by have := hi.free; revert this; decide,
    tornDown_reachable true, by decide, by decide, fun hi => by have := hi.total; revert this; decide⟩

end Verona.Rt
