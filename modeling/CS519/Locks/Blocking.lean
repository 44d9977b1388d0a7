import CS519.Locks.Bench

/-!
# The five locks

`mutex_lock.h` and `semaphore_lock.h` hand their work to the library: a thread that calls for a taken mutex,
or for a semaphore without a permit, is blocked until it can have it. Both are locks of two states like the
compare-and-swap and the test-and-set lock (`mutex_two_state`, `semaphore_two_state`).

`create_lock` makes the lock for a number, and all locks that it can make exclude (`lock_t_excludes`).
-/

namespace CS519.Locks

/-! ## `mutex_lock.h` and `semaphore_lock.h` -/

/-- `pthread_mutex_lock`: a thread that finds the mutex locked is blocked. -/
def mutex_lock (_ : Unit) (locked : Bool) : Bool × Option Unit :=
  (true, if locked then some () else none)

/-- `pthread_mutex_unlock`. -/
def mutex_unlock (_ : Unit) (_ : Bool) : Bool × Option Unit := (false, none)

abbrev mutex : Lock where
  Shared := Bool
  Acquire := Unit
  Release := Unit
  init := false
  acquire := ()
  release := ()
  acquire_step := mutex_lock
  release_step := mutex_unlock

/-- `sem_wait`: a thread that finds no permit is blocked. -/
def semaphore_lock (_ : Unit) (value : ℕ) : ℕ × Option Unit :=
  if value = 0 then (value, some ()) else (value - 1, none)

/-- `sem_post`. -/
def semaphore_unlock (_ : Unit) (value : ℕ) : ℕ × Option Unit := (value + 1, none)

/-- `semaphore_init` puts one permit into the semaphore. -/
abbrev semaphore : Lock where
  Shared := ℕ
  Acquire := Unit
  Release := Unit
  init := 1
  acquire := ()
  release := ()
  acquire_step := semaphore_lock
  release_step := semaphore_unlock

/-- A mutex is unlocked or locked. -/
lemma mutex_two_state : TwoState mutex true :=
  ⟨fun _ => rfl, fun _ => rfl, fun _ => rfl, fun _ => rfl, fun _ => rfl⟩

/-- The semaphore has its permit or has not. -/
lemma semaphore_two_state : TwoState semaphore (0 : ℕ) :=
  ⟨fun _ => rfl, fun _ => rfl, fun _ => rfl, fun _ => rfl, fun _ => rfl⟩

/-! ## `locks.h` -/

/-- The locks of `locks.h`. -/
inductive lock_t where
  | spin (type : lock_types)
  | MUTEX
  | SEMAPHORE
deriving DecidableEq, Repr

/-- The lock whose procedures `acquire_lock` and `release_lock` call. -/
def lock_t.lock : lock_t → Lock
  | spin type => type.lock
  | MUTEX => mutex
  | SEMAPHORE => semaphore

/-- The lock for a number, or none for a number without a lock. -/
def create_lock (lock_type : ℤ) : Option lock_t :=
  match lock_type with
  | 1 => some (.spin .COMPARE_AND_SWAP)
  | 2 => some (.spin .TEST_AND_SET)
  | 3 => some (.spin .TICKET)
  | 4 => some .MUTEX
  | 5 => some .SEMAPHORE
  | _ => none

/-- All locks exclude, the ticket lock for as many threads as it has tickets. -/
lemma lock_t_excludes (l : lock_t) {N : ℕ} (le : l = .spin .TICKET → N ≤ 65536) : l.lock.Excludes N := by
  cases l with
  | spin type => exact lock_excludes type fun e => le (congrArg _ e)
  | MUTEX => exact two_state_excludes mutex_two_state
  | SEMAPHORE => exact two_state_excludes semaphore_two_state

end CS519.Locks
