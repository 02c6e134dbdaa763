import VeronaScheduler.Basic

/- The walk of `collect_cown_stubs` over the drained registry (lines 704–758).

   `core->drain()` hands back the registry as an intrusive singly-linked list:
   a head pointer and one `next` field per cown. The loop keeps `p`, a pointer
   to the link it is looking at (first the local `_list`, then the `next` field
   of the last cown it kept), and for each cown `c = *p` either keeps it
   (`tail = c; p = &c->next`) or unlinks it (`*p = c->next`), deallocating it
   when its stub may go. This file

   1. models the walk at the level of those pointers (`StubWalk`, `body`,
      `loop`), with the decision for one cown factored out as `StubEnv.fate`;
   2. proves that on any acyclic list `L` the walk ends after exactly `|L|`
      passes, deallocates exactly the cowns `StubEnv.freed` selects, once each
      and in list order, unlinks without deallocating exactly the
      `StubEnv.leaked` ones, and leaves the others linked in their original
      order from `_list` to a null `next`, with `tail` the last of them
      (`collect_cown_stubs_walk`).

   The registry model (`Registry.lean`) uses the list-level form of (2). -/
namespace Verona.Rt

/-- What `collect_cown_stubs` reads besides the list: the cowns' `weak_count` and
`epoch_when_popped`, `GlobalEpoch::is_outdated`, the template flag
`during_teardown` and `Scheduler::get_detect_leaks()`. -/
structure StubEnv where
  weakCount : CownId → Nat
  epochWhenPopped : CownId → Option Nat
  isOutdated : Nat → Bool
  duringTeardown : Bool
  detectLeaks : Bool

/-- What the loop body does with one cown. -/
inductive Fate
  | keep
  | leak
  | dealloc
  deriving DecidableEq, Repr

namespace StubEnv

/-- Lines 731–733: `epoch == T::NO_EPOCH_SET || GlobalEpoch::is_outdated(epoch)`. -/
def outdated (e : StubEnv) (c : CownId) : Bool :=
  match e.epochWhenPopped c with
  | none => true
  | some x => e.isOutdated x

/-- Lines 718–750: the branches of the loop body. -/
def fate (e : StubEnv) (c : CownId) : Fate :=
  if e.weakCount c == 0 || e.duringTeardown then
    if e.weakCount c != 0 && e.detectLeaks then .leak
    else if e.outdated c then .dealloc
    else .keep
  else .keep

/-- The cowns whose stub is freed: no weak reference left (or teardown without
leak detection), and an outdated epoch. -/
def freed (e : StubEnv) (c : CownId) : Bool :=
  (e.weakCount c == 0 || e.duringTeardown && !e.detectLeaks) && e.outdated c

/-- The cowns unlinked and not freed: weak references left at teardown, with
leak detection on. -/
def leaked (e : StubEnv) (c : CownId) : Bool :=
  e.duringTeardown && e.detectLeaks && e.weakCount c != 0

theorem fate_eq_dealloc (e : StubEnv) (c : CownId) : e.fate c = .dealloc ↔ e.freed c = true := by
  unfold fate freed
  cases e.duringTeardown <;> cases e.detectLeaks <;> cases e.outdated c <;>
    by_cases h : e.weakCount c = 0 <;> simp [h]

theorem fate_eq_leak (e : StubEnv) (c : CownId) : e.fate c = .leak ↔ e.leaked c = true := by
  unfold fate leaked
  cases e.duringTeardown <;> cases e.detectLeaks <;> cases e.outdated c <;>
    by_cases h : e.weakCount c = 0 <;> simp [h]

theorem fate_eq_keep (e : StubEnv) (c : CownId) :
    e.fate c = .keep ↔ e.freed c = false ∧ e.leaked c = false := by
  rw [← Bool.not_eq_true, ← Bool.not_eq_true, ← fate_eq_dealloc, ← fate_eq_leak]
  cases e.fate c <;> simp

end StubEnv

/-- Where `p` points: at the local `_list`, or at the `next` field of a cown. -/
inductive Link
  | list
  | next (c : CownId)
  deriving DecidableEq, Repr

/-- The link after the kept cowns `K`: `_list` while none is kept, else the
`next` field of the last one. -/
def Link.after (K : List CownId) : Link := K.getLast?.elim .list .next

/-- The local state of the walk, and the `next` fields it rewrites. -/
structure StubWalk where
  list : Option CownId
  next : CownId → Option CownId
  p : Link
  tail : Option CownId
  removedCount : Nat
  count : Nat
  deallocated : List CownId

namespace StubWalk

/-- `*p`. -/
def load (s : StubWalk) : Link → Option CownId
  | .list => s.list
  | .next c => s.next c

/-- `*p = v`. -/
def store (s : StubWalk) : Link → Option CownId → StubWalk
  | .list, v => { s with list := v }
  | .next c, v => { s with next := Function.update s.next c v }

/-- `removed_count++; c->dealloc(*alloc)`. -/
def dealloc (s : StubWalk) (c : CownId) : StubWalk :=
  { s with removedCount := s.removedCount + 1, deallocated := s.deallocated ++ [c] }

/-- One pass of the loop body (lines 715–750) on `c = *p`. -/
def body (e : StubEnv) (s : StubWalk) (c : CownId) : StubWalk :=
  let s := { s with count := s.count + 1 }
  match e.fate c with
  | .leak => s.store s.p (s.next c)
  | .dealloc => (s.store s.p (s.next c)).dealloc c
  | .keep => { s with tail := some c, p := .next c }

/-- `while (*p != nullptr)`, for at most `fuel` passes. -/
def loop (e : StubEnv) : Nat → StubWalk → StubWalk
  | 0, s => s
  | fuel + 1, s =>
    match s.load s.p with
    | none => s
    | some c => loop e fuel (s.body e c)

/-- Lines 705–711: the walk over a drained list starting at `head`. -/
def start (head : Option CownId) (next : CownId → Option CownId) : StubWalk :=
  { list := head, next := next, p := .list, tail := none,
    removedCount := 0, count := 0, deallocated := [] }

/-- Lines 754–758: the arguments of `core->add_cowns(*list, tail)`, if it is called. -/
def putBack (s : StubWalk) : Option (CownId × Option CownId) :=
  s.list.map fun h => (h, s.tail)

end StubWalk

/-! ## Linked lists -/

/-- `Path next h l t`: from the pointer `h`, following `next`, one meets the cowns
`l` in order and then the pointer `t`. -/
def Path (next : CownId → Option CownId) : Option CownId → List CownId → Option CownId → Prop
  | h, [], t => h = t
  | h, c :: l, t => h = some c ∧ Path next (next c) l t

theorem path_append {next : CownId → Option CownId} {h t : Option CownId} :
    ∀ {l₁ l₂ : List CownId},
      Path next h (l₁ ++ l₂) t ↔ ∃ m, Path next h l₁ m ∧ Path next m l₂ t
  | [], _ => by simp [Path]
  | c :: l₁, l₂ => by
    simp only [List.cons_append, Path]
    constructor
    · rintro ⟨rfl, hp⟩
      obtain ⟨m, h₁, h₂⟩ := path_append.mp hp
      exact ⟨m, ⟨rfl, h₁⟩, h₂⟩
    · rintro ⟨m, ⟨rfl, h₁⟩, h₂⟩
      exact ⟨rfl, path_append.mpr ⟨m, h₁, h₂⟩⟩

theorem path_concat {next : CownId → Option CownId} {h t : Option CownId} {l : List CownId}
    {c : CownId} : Path next h (l ++ [c]) t ↔ Path next h l (some c) ∧ next c = t := by
  rw [path_append]
  simp only [Path]
  constructor
  · rintro ⟨m, h₁, rfl, h₂⟩
    exact ⟨h₁, h₂⟩
  · rintro ⟨h₁, h₂⟩
    exact ⟨_, h₁, rfl, h₂⟩

/-- Rewriting the `next` field of a cown off the path leaves the path alone. -/
theorem path_update {next : CownId → Option CownId} {k : CownId} {v t : Option CownId} :
    ∀ {h : Option CownId} {l : List CownId}, k ∉ l →
      (Path (Function.update next k v) h l t ↔ Path next h l t)
  | _, [], _ => Iff.rfl
  | _, c :: l, hk => by
    have hc : c ≠ k := fun e => hk (e ▸ List.mem_cons_self c l)
    simp only [Path, Function.update_noteq hc, path_update (fun m => hk (List.mem_cons_of_mem c m))]

theorem path_nil_head {next : CownId → Option CownId} {h : Option CownId} :
    ∀ {l : List CownId}, Path next h l none → h = l.head?
  | [], hp => hp
  | _ :: _, ⟨e, _⟩ => e

/-! ## The walk -/

namespace StubWalk

@[simp] theorem load_list (s : StubWalk) : s.load .list = s.list := rfl
@[simp] theorem load_next (s : StubWalk) (c : CownId) : s.load (.next c) = s.next c := rfl
@[simp] theorem store_p (s : StubWalk) (l : Link) (v : Option CownId) : (s.store l v).p = s.p := by
  cases l <;> rfl
@[simp] theorem store_tail (s : StubWalk) (l : Link) (v : Option CownId) :
    (s.store l v).tail = s.tail := by cases l <;> rfl
@[simp] theorem store_count (s : StubWalk) (l : Link) (v : Option CownId) :
    (s.store l v).count = s.count := by cases l <;> rfl
@[simp] theorem store_removedCount (s : StubWalk) (l : Link) (v : Option CownId) :
    (s.store l v).removedCount = s.removedCount := by cases l <;> rfl
@[simp] theorem store_deallocated (s : StubWalk) (l : Link) (v : Option CownId) :
    (s.store l v).deallocated = s.deallocated := by cases l <;> rfl
@[simp] theorem dealloc_list (s : StubWalk) (c : CownId) : (s.dealloc c).list = s.list := rfl
@[simp] theorem dealloc_next (s : StubWalk) (c : CownId) : (s.dealloc c).next = s.next := rfl
@[simp] theorem dealloc_p (s : StubWalk) (c : CownId) : (s.dealloc c).p = s.p := rfl
@[simp] theorem dealloc_tail (s : StubWalk) (c : CownId) : (s.dealloc c).tail = s.tail := rfl
@[simp] theorem dealloc_count (s : StubWalk) (c : CownId) : (s.dealloc c).count = s.count := rfl
@[simp] theorem dealloc_removedCount (s : StubWalk) (c : CownId) :
    (s.dealloc c).removedCount = s.removedCount + 1 := rfl
@[simp] theorem dealloc_deallocated (s : StubWalk) (c : CownId) :
    (s.dealloc c).deallocated = s.deallocated ++ [c] := rfl
@[simp] theorem load_dealloc (s : StubWalk) (c : CownId) (l : Link) :
    (s.dealloc c).load l = s.load l := by cases l <;> rfl
@[simp] theorem load_store (s : StubWalk) (l : Link) (v : Option CownId) :
    (s.store l v).load l = v := by cases l <;> simp [store, load]

/-- Storing at the link after the kept cowns re-points that link and keeps
their path. -/
theorem path_store_after {s : StubWalk} {K : List CownId} {v : Option CownId}
    (hnd : K.Nodup) (hK : Path s.next s.list K (s.load (Link.after K))) :
    Path (s.store (Link.after K) v).next (s.store (Link.after K) v).list K v := by
  rcases K.eq_nil_or_concat with rfl | ⟨K, k, rfl⟩
  · simp [Link.after, store, Path]
  · rw [List.concat_eq_append] at hnd hK ⊢
    have hk : k ∉ K := fun m => (List.nodup_append.mp hnd).2.2 m (List.mem_singleton_self k)
    simp only [Link.after, List.getLast?_concat, Option.elim, store, load_next] at hK ⊢
    rw [path_concat, path_update hk] at *
    exact ⟨hK.1, Function.update_same _ _ _⟩

/-- Storing at the link after `K` leaves alone any path off its last cown. -/
theorem path_store_frame {s : StubWalk} {K S : List CownId} {v h t : Option CownId}
    (hS : ∀ k ∈ K.getLast?, k ∉ S) (hp : Path s.next h S t) :
    Path (s.store (Link.after K) v).next h S t := by
  cases hl : K.getLast? with
  | none => simpa [Link.after, hl, store] using hp
  | some k =>
    simp only [Link.after, hl, Option.elim, store]
    exact (path_update (hS k hl)).mpr hp

/-- Unlinking `c = *p` (`*p = c->next`) keeps the kept cowns' path and puts the
rest of the list right after them. -/
theorem unlink_paths {s : StubWalk} {K S : List CownId} {c : CownId}
    (hKnd : K.Nodup) (hp : s.p = Link.after K) (hoff : ∀ k ∈ K.getLast?, k ∉ S)
    (hK : Path s.next s.list K (s.load s.p)) (hS : Path s.next (s.next c) S none) :
    Path (s.store s.p (s.next c)).next (s.store s.p (s.next c)).list K
        ((s.store s.p (s.next c)).load (s.store s.p (s.next c)).p) ∧
      Path (s.store s.p (s.next c)).next ((s.store s.p (s.next c)).load
        (s.store s.p (s.next c)).p) S none := by
  simp only [store_p, load_store]
  rw [hp] at hK ⊢
  exact ⟨path_store_after hKnd hK, path_store_frame hoff hS⟩

/-- The walk has passed the cowns `P`, keeping those of fate `keep`, and `S` lies
ahead of `p`. -/
structure Walking (e : StubEnv) (s : StubWalk) (P S : List CownId) : Prop where
  kept : Path s.next s.list (P.filter (e.fate · = .keep)) (s.load s.p)
  ahead : Path s.next (s.load s.p) S none
  at_after : s.p = Link.after (P.filter (e.fate · = .keep))
  tail : s.tail = (P.filter (e.fate · = .keep)).getLast?
  count : s.count = P.length
  dealloc : s.deallocated = P.filter (e.fate · = .dealloc)
  removed : s.removedCount = (P.filter (e.fate · = .dealloc)).length

/-- One pass of the body keeps the walk's invariant. -/
theorem walking_body {e : StubEnv} {s : StubWalk} {P S : List CownId} {c : CownId}
    (hw : Walking e s P (c :: S)) (hnd : (P ++ c :: S).Nodup) :
    Walking e (s.body e c) (P ++ [c]) S := by
  obtain ⟨hK, ⟨hload, hS⟩, hp, ht, hc, hd, hr⟩ := hw
  have hKnd : (P.filter (e.fate · = .keep)).Nodup := (List.nodup_append.mp hnd).1.filter _
  have hoff : ∀ k ∈ (P.filter (e.fate · = .keep)).getLast?, k ∉ S := fun k hk hm =>
    (List.nodup_append.mp hnd).2.2 (List.mem_of_mem_filter (List.mem_of_mem_getLast? hk))
      (List.mem_cons_of_mem c hm)
  unfold body
  cases hf : e.fate c with
  | keep =>
    refine ⟨?_, hS, ?_, ?_, ?_, ?_, ?_⟩ <;> simp [List.filter_append, hf, hc, hd, hr, Link.after]
    exact path_concat.mpr ⟨hload ▸ hK, rfl⟩
  | leak =>
    obtain ⟨h₁, h₂⟩ := unlink_paths (s := { s with count := s.count + 1 }) hKnd hp hoff hK hS
    exact ⟨by simpa [List.filter_append, hf] using h₁, h₂, by simpa [List.filter_append, hf] using hp,
      by simpa [List.filter_append, hf] using ht, by simp [hc], by simpa [List.filter_append, hf] using hd,
      by simpa [List.filter_append, hf] using hr⟩
  | dealloc =>
    obtain ⟨h₁, h₂⟩ := unlink_paths (s := { s with count := s.count + 1 }) hKnd hp hoff hK hS
    exact ⟨by simpa [List.filter_append, hf] using h₁, by simpa using h₂,
      by simpa [List.filter_append, hf] using hp, by simpa [List.filter_append, hf] using ht,
      by simp [hc], by simp [List.filter_append, hf, hd], by simp [List.filter_append, hf, hr]⟩

/-- The loop, given one pass per cown ahead, walks the whole list. -/
theorem walking_loop {e : StubEnv} :
    ∀ {S P : List CownId} {s : StubWalk}, Walking e s P S → (P ++ S).Nodup →
      Walking e (s.loop e S.length) (P ++ S) []
  | [], _, _, hw, _ => by simpa [loop] using hw
  | c :: S, P, s, hw, hnd => by
    have hload : s.load s.p = some c := hw.ahead.1
    have h := walking_loop (walking_body hw hnd) (by simpa using hnd)
    simpa [loop, hload] using h

end StubWalk

/-- **The walk of `collect_cown_stubs`.** On a drained registry that is an acyclic
list `L`, the loop makes exactly `|L|` passes (it has stopped, and counted each);
it deallocates the freed cowns of `L`, once each and in list order, and counts
them in `removed_count`; the cowns it unlinks without deallocating are exactly
the leaked ones; the rest stay linked from `_list` in their original order to a
null `next`, `tail` is the last of them, and `add_cowns(*list, tail)` is called
iff there is one. -/
theorem collect_cown_stubs_walk (e : StubEnv) (next : CownId → Option CownId)
    (head : Option CownId) (L : List CownId) (hnd : L.Nodup) (hL : Path next head L none) :
    let s := (StubWalk.start head next).loop e L.length
    let R := L.filter fun c => !e.freed c && !e.leaked c
    s.load s.p = none ∧ s.count = L.length ∧
      s.deallocated = L.filter e.freed ∧ s.removedCount = (L.filter e.freed).length ∧
      (∀ c ∈ L, (c ∉ s.deallocated ∧ c ∉ R) ↔ e.leaked c = true) ∧
      Path s.next s.list R none ∧ s.tail = R.getLast? ∧
      s.putBack = R.head?.map fun h => (h, R.getLast?) := by
  have hstart : StubWalk.Walking e (StubWalk.start head next) [] L :=
    ⟨rfl, hL, rfl, rfl, rfl, rfl, rfl⟩
  obtain ⟨hK, hS, -, ht, hc, hd, hr⟩ := StubWalk.walking_loop hstart (by simpa using hnd)
  have hkeep : L.filter (e.fate · = .keep) = L.filter fun c => !e.freed c && !e.leaked c :=
    List.filter_congr fun c _ => by simp [StubEnv.fate_eq_keep]
  have hfree : L.filter (e.fate · = .dealloc) = L.filter e.freed :=
    List.filter_congr fun c _ => by simp [StubEnv.fate_eq_dealloc]
  simp only [List.nil_append, hkeep, hfree] at hK hS ht hc hd hr
  have hend : ((StubWalk.start head next).loop e L.length).load
      ((StubWalk.start head next).loop e L.length).p = none := hS
  rw [hend] at hK
  refine ⟨hend, hc, hd, hr, fun c hc => ?_, hK, ht, ?_⟩
  · rw [hd]
    have h₁ := StubEnv.fate_eq_dealloc e c
    have h₂ := StubEnv.fate_eq_leak e c
    cases hf : e.fate c <;> simp_all [StubEnv.fate_eq_keep]
  · simp only [StubWalk.putBack, path_nil_head hK, ht]

/-- The list `0 → 1 → 2` at teardown with leak detection: `0` is freed, `1`
still has a weak reference and is leaked, `2` was popped in an epoch that is not
outdated and is kept. -/
theorem collect_cown_stubs_walk_sample :
    let e : StubEnv := ⟨fun c => if c = 1 then 1 else 0, fun c => if c = 2 then some 5 else none,
      fun _ => false, true, true⟩
    let next : CownId → Option CownId := fun c => if c < 2 then some (c + 1) else none
    let L : List CownId := [0, 1, 2]
    L.Nodup ∧ Path next (some 0) L none ∧
    let s := (StubWalk.start (some 0) next).loop e L.length
    let R := L.filter fun c => !e.freed c && !e.leaked c
    s.load s.p = none ∧ s.count = L.length ∧
      s.deallocated = L.filter e.freed ∧ s.removedCount = (L.filter e.freed).length ∧
      (∀ c ∈ L, (c ∉ s.deallocated ∧ c ∉ R) ↔ e.leaked c = true) ∧
      Path s.next s.list R none ∧ s.tail = R.getLast? ∧
      s.putBack = R.head?.map fun h => (h, R.getLast?) :=
  ⟨by decide, ⟨rfl, rfl, rfl, rfl⟩, collect_cown_stubs_walk _ _ _ _ (by decide) ⟨rfl, rfl, rfl, rfl⟩⟩

end Verona.Rt
