import Mathlib.Data.BitVec
import Mathlib.Logic.Function.Basic
import CS519.Run

/-!
# Spin locks and their threads

A spin lock is a piece of shared memory and two procedures on it, each of which is a sequence of atomic
accesses to that memory. `Lock` gives the procedures as step functions, so that the accesses of several
threads can be interleaved in any way; the three spin locks of `locks.h` are instances, under the names
of their own files.

`Threads` is the system of `N` threads that repeat acquire, critical section, release. A run is a
schedule: the list of the threads that move, one access at a time. A thread that is never scheduled again
has stopped, and a critical section lasts until its thread is scheduled.
-/

namespace CS519.Locks

/-- A lock: its memory, where a thread can be in its two procedures, and their atomic steps. A step that
ends its procedure returns `none`. -/
structure Lock where
  Shared : Type
  Acquire : Type
  Release : Type
  init : Shared
  acquire : Acquire
  release : Release
  acquire_step : Acquire → Shared → Shared × Option Acquire
  release_step : Release → Shared → Shared × Option Release

/-- `unsigned int`. -/
abbrev uint := BitVec 32

/-- `unsigned short`. -/
abbrev ushort := BitVec 16

section Atomic
variable {w : Nat}

/-- The memory after `__sync_val_compare_and_swap`, and what it returns. -/
def sync_val_compare_and_swap (mem old new : BitVec w) : BitVec w × BitVec w :=
  (if mem = old then new else mem, mem)

/-- The memory after `__sync_lock_test_and_set`, and what it returns. -/
def sync_lock_test_and_set (mem new : BitVec w) : BitVec w × BitVec w := (new, mem)

/-- The memory after `__sync_fetch_and_add`, and what it returns. -/
def sync_fetch_and_add (mem inc : BitVec w) : BitVec w × BitVec w := (mem + inc, mem)

end Atomic

/-- A lock that is one word in memory, with a loop of one access to take it and one access to give it
back. -/
abbrev word_lock (lock unlock : Unit → uint → uint × Option Unit) : Lock where
  Shared := uint
  Acquire := Unit
  Release := Unit
  init := 0
  acquire := ()
  release := ()
  acquire_step := lock
  release_step := unlock

/-! ## `compare_and_swap.h` -/

/-- One round of the loop of `caslock_lock`. -/
def caslock_lock (_ : Unit) (lock : uint) : uint × Option Unit :=
  let (lock, ret) := sync_val_compare_and_swap lock 0 1
  (lock, if ret ≠ 0 then some () else none)

def caslock_unlock (_ : Unit) (_ : uint) : uint × Option Unit := (0, none)

abbrev caslock : Lock := word_lock caslock_lock caslock_unlock

/-! ## `test_and_set.h` -/

/-- One round of the loop of `taslock_lock`. -/
def taslock_lock (_ : Unit) (lock : uint) : uint × Option Unit :=
  let (lock, ret) := sync_lock_test_and_set lock 1
  (lock, if ret ≠ 0 then some () else none)

def taslock_unlock (_ : Unit) (_ : uint) : uint × Option Unit := (0, none)

abbrev taslock : Lock := word_lock taslock_lock taslock_unlock

/-! ## `ticket_lock.h` -/

structure ticket_lock_t where
  next_ticket : ushort
  now_serving : ushort
deriving DecidableEq, Repr

/-- Where a thread is in `ticket_acquire`: before its fetch-and-add, or in the loop with its ticket. -/
inductive TicketAcquire where
  | fetch
  | spin (my_ticket : uint)
deriving DecidableEq, Repr

/-- Where a thread is in `ticket_release`, whose increment is a read and a write. -/
inductive TicketRelease where
  | read
  | write (now_serving : ushort)
deriving DecidableEq, Repr

def ticket_init : ticket_lock_t := ⟨0, 0⟩

/-- One access of `ticket_acquire`. The ticket is widened to an `unsigned int`, and so is `now_serving`
for the comparison. -/
def ticket_acquire : TicketAcquire → ticket_lock_t → ticket_lock_t × Option TicketAcquire
  | .fetch, lock =>
    let (next_ticket, ret) := sync_fetch_and_add lock.next_ticket 1
    ({ lock with next_ticket }, some (.spin (ret.setWidth 32)))
  | .spin my_ticket, lock =>
    (lock, if lock.now_serving.setWidth 32 ≠ my_ticket then some (.spin my_ticket) else none)

/-- One access of `ticket_release`. -/
def ticket_release : TicketRelease → ticket_lock_t → ticket_lock_t × Option TicketRelease
  | .read, lock => (lock, some (.write lock.now_serving))
  | .write now_serving, lock => ({ lock with now_serving := now_serving + 1 }, none)

abbrev ticket_lock : Lock where
  Shared := ticket_lock_t
  Acquire := TicketAcquire
  Release := TicketRelease
  init := ticket_init
  acquire := .fetch
  release := .read
  acquire_step := ticket_acquire
  release_step := ticket_release

/-! ## The threads -/

/-- Where a thread is. -/
inductive Phase (L : Lock) where
  | outside
  | acquiring (a : L.Acquire)
  | critical
  | releasing (r : L.Release)

namespace Phase
variable {L : Lock}

/-- The thread is between its acquire and the end of its release. -/
def inside : Phase L → Prop
  | outside => False
  | acquiring _ => False
  | critical => True
  | releasing _ => True

instance : DecidablePred (inside : Phase L → Prop)
  | outside => inferInstanceAs (Decidable False)
  | acquiring _ => inferInstanceAs (Decidable False)
  | critical => inferInstanceAs (Decidable True)
  | releasing _ => inferInstanceAs (Decidable True)

/-- The next access of a thread. -/
def next : Phase L → L.Shared → L.Shared × Phase L
  | outside, lock => (lock, acquiring L.acquire)
  | acquiring a, lock =>
    let (lock, a) := L.acquire_step a lock
    (lock, a.elim critical acquiring)
  | critical, lock => (lock, releasing L.release)
  | releasing r, lock =>
    let (lock, r) := L.release_step r lock
    (lock, r.elim outside releasing)

end Phase

/-- The memory of a lock and the threads that use it. -/
structure Threads (L : Lock) (N : ℕ) where
  lock : L.Shared
  phase : Fin N → Phase L

namespace Threads
variable {L : Lock} {N : ℕ}

/-- The lock is initialised and no thread has started. -/
def start : Threads L N := ⟨L.init, fun _ => .outside⟩

/-- A thread changes the memory and moves on. -/
def move (s : Threads L N) (t : Fin N) (lock : L.Shared) (phase : Phase L) : Threads L N :=
  ⟨lock, Function.update s.phase t phase⟩

/-- A thread makes its next access. -/
def step (s : Threads L N) (t : Fin N) : Threads L N :=
  let (lock, phase) := (s.phase t).next s.lock
  s.move t lock phase

/-- The thread is between its acquire and the end of its release. -/
def inside (s : Threads L N) (t : Fin N) : Prop := (s.phase t).inside

instance (s : Threads L N) (t : Fin N) : Decidable (s.inside t) :=
  inferInstanceAs (Decidable (s.phase t).inside)

section Move
variable (s : Threads L N) {t u : Fin N} (lock : L.Shared) (phase : Phase L)

/-- The lock after a step. -/
@[simp] lemma move_lock : (s.move t lock phase).lock = lock := rfl

/-- The thread that moves is in its new phase. -/
@[simp] lemma move_phase_self : (s.move t lock phase).phase t = phase := Function.update_self ..

/-- The other threads stay in their phases. -/
lemma move_phase_of_ne (ne : u ≠ t) : (s.move t lock phase).phase u = s.phase u :=
  Function.update_of_ne ne ..

/-- The thread that moves is inside if its new phase is. -/
@[simp] lemma move_inside_self : (s.move t lock phase).inside t ↔ phase.inside := by
  rw [inside, move_phase_self]

/-- The other threads stay inside or outside. -/
lemma move_inside_of_ne (ne : u ≠ t) : (s.move t lock phase).inside u ↔ s.inside u := by
  rw [inside, inside, move_phase_of_ne s lock phase ne]

end Move

/-- The state after a schedule. -/
def after (L : Lock) {N : ℕ} (h : List (Fin N)) : Threads L N := run step start h

end Threads

/-- The lock keeps all threads but one out, whatever the schedule. -/
def Lock.Excludes (L : Lock) (N : ℕ) : Prop :=
  ∀ (h : List (Fin N)) (t u : Fin N),
    (Threads.after L h).inside t → (Threads.after L h).inside u → t = u

end CS519.Locks
