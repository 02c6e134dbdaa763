import Mathlib.Algebra.BigOperators.Group.Finset
import Mathlib.Data.Multiset.OrderedMonoid

/- The vocabulary of the scheduler thread, `src/rt/sched/schedulerthread.h`.

   `SchedulerThread<T>` is generic over the cown type `T` and touches four
   fields of a cown, plus the low bit of a queued `T*`:

     `owning_core`, `get_epoch_mark`, `weak_count`, `epoch_when_popped` ↔ `CownRec`
     a queued `T*`, with or without the thread bit                     ↔ `Item`

   A queued pointer whose thread bit is set is a core's token cown; it is only
   ever dequeued, never run. We keep the tag as a constructor: `Item.token k`
   is the token of core `k`, `Item.cown c` an untagged cown. Cores are `Fin W`
   (one scheduler thread per core, so a worker is named by its core), cowns
   are named by `Nat`.

   `EpochMark`, `ThreadState::State` and `Core<T>` are declared in headers that
   are not part of this development's source; their shape here follows the
   specification (§3, §4.3). -/
namespace Verona.Rt

/-- `EpochMark`: how a cown or a message stands relative to the current scan. -/
inductive EpochMark
  | epochA
  | epochB
  | epochNone
  deriving DecidableEq, Repr

/-- Modelled from the spec: `ThreadState::State`, the twelve leak-detector states
of §4.3 (`threadstate.h` is not under src/). -/
inductive ThreadState
  | notInLD
  | wantLD
  | preScan
  | scan
  | allInScan
  | believeDoneVote
  | believeDone
  | believeDoneConfirm
  | believeDoneRetract
  | reallyDoneConfirm
  | sweep
  | finished
  deriving DecidableEq, Repr

/-- A cown's name. -/
abbrev CownId := Nat

/-- A queued `T*`: an untagged cown, or the token cown of a core (thread bit set). -/
inductive Item (W : Nat)
  | cown (c : CownId)
  | token (k : Fin W)
  deriving DecidableEq, Repr

/-- `has_thread_bit`. -/
def Item.hasThreadBit {W : Nat} : Item W → Bool
  | .cown _ => false
  | .token _ => true

/-- The fields of a cown the scheduler thread reads or writes. `epochWhenPopped`
is `none` for the sentinel `T::NO_EPOCH_SET`. -/
structure CownRec (W : Nat) where
  owningCore : Option (Fin W)
  epochMark : EpochMark
  weakCount : Nat
  epochWhenPopped : Option Nat
  deriving DecidableEq, Repr

/-- Modelled from the spec: the fields of `Core<T>` (declared in `core.h`, not
under src/) that the scheduler thread uses. `q` is the run queue, FIFO as §6
states it (enqueue at the tail, `enqueue_front` at the head, dequeue at the
head); `cowns` is the registry of cowns whose home is this core;
`servicingThreads` counts the threads still servicing it (§3: one in the
normal model). -/
structure Core (W : Nat) where
  q : List (Item W)
  cowns : List CownId
  totalCowns : Nat
  freeCowns : Nat
  progressCounter : Nat
  lastWorker : Nat
  servicingThreads : Nat
  deriving DecidableEq, Repr

/-- `x -= y` on a `size_t`: below zero it wraps to `2^64 - (y - x)`. -/
def wrapSub (x y : Nat) : Nat :=
  if y ≤ x then x - y else 2 ^ 64 - (y - x)

theorem wrapSub_of_le {x y : Nat} (h : y ≤ x) : wrapSub x y = x - y := if_pos h

/-- `x << 1` on a `size_t`: the top bit is lost. -/
def wrapShl (x : Nat) : Nat := x * 2 % 2 ^ 64

end Verona.Rt
