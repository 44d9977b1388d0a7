import Mathlib.Algebra.BigOperators.Group.Finset.Basic
import CS519.Locks.Ticket
import CS519.Locks.TwoState

/-!
# The benchmark

The threads of `main.c`: each one takes the lock `iterations` times and, while it has it, increments one
of the shared counters `work_length` times, by a load and a store. The threads project onto the threads
of the lock alone (`Bench.threads`), so a lock that excludes keeps the increments of two threads apart,
and each counter is its initial value plus what its threads have done so far (`Counted`). When all
threads have finished, no increment is missing (`counters_exact`).
-/

namespace CS519.Locks

/-- The spin locks among the lock types of `locks.h`. -/
inductive lock_types where
  | COMPARE_AND_SWAP
  | TEST_AND_SET
  | TICKET
deriving DecidableEq, Repr

/-- The lock whose procedures `acquire_lock` and `release_lock` call. -/
def lock_types.lock : lock_types → Lock
  | COMPARE_AND_SWAP => caslock
  | TEST_AND_SET => taslock
  | TICKET => ticket_lock

abbrev NUM_COUNTERS : ℕ := 16

/-- The shared counters. An `int` is a word that wraps. -/
abbrev Counters := Fin NUM_COUNTERS → BitVec 32

/-- The counter of a thread. -/
def counter_id {N : ℕ} (thread_id : Fin N) : Fin NUM_COUNTERS := Fin.ofNat NUM_COUNTERS thread_id

/-- Where a thread is in `inc_thread` and `do_work`, with its loop counters `i` and `j`. -/
inductive Pc (L : Lock) where
  | head (i : ℕ)
  | acquiring (i : ℕ) (a : L.Acquire)
  | work (i j : ℕ)
  | loaded (i j : ℕ) (v : BitVec 32)
  | releasing (i : ℕ) (r : L.Release)
  | done

namespace Pc
variable {L : Lock}

/-- The next access of a thread that works on the counter `c`. -/
def next (iterations work_length : ℕ) (c : Fin NUM_COUNTERS) :
    Pc L → L.Shared → Counters → L.Shared × Counters × Pc L
  | head i, lock, counters =>
    (lock, counters, if i < iterations then acquiring i L.acquire else done)
  | acquiring i a, lock, counters =>
    let (lock, a) := L.acquire_step a lock
    (lock, counters, a.elim (work i 0) (acquiring i))
  | work i j, lock, counters =>
    (lock, counters, if j < work_length then loaded i j (counters c) else releasing i L.release)
  | loaded i j v, lock, counters => (lock, Function.update counters c (v + 1), work i (j + 1))
  | releasing i r, lock, counters =>
    let (lock, r) := L.release_step r lock
    (lock, counters, r.elim (head (i + 1)) (releasing i))
  | done, lock, counters => (lock, counters, done)

/-- Where the thread is with respect to the lock. -/
def phase : Pc L → Phase L
  | head _ => .outside
  | acquiring _ a => .acquiring a
  | work _ _ => .critical
  | loaded _ _ _ => .critical
  | releasing _ r => .releasing r
  | done => .outside

/-- How many increments the thread has made. -/
def count (iterations work_length : ℕ) : Pc L → ℕ
  | head i => i * work_length
  | acquiring i _ => i * work_length
  | work i j => i * work_length + j
  | loaded i j _ => i * work_length + j
  | releasing i _ => (i + 1) * work_length
  | done => iterations * work_length

/-- The loop counters are in range. -/
def bounded (iterations work_length : ℕ) : Pc L → Prop
  | head i => i ≤ iterations
  | acquiring i _ => i < iterations
  | work i j => i < iterations ∧ j ≤ work_length
  | loaded i j _ => i < iterations ∧ j < work_length
  | releasing i _ => i < iterations
  | done => True

end Pc

/-- The shared memory of the benchmark and its threads. -/
structure Bench (L : Lock) (N : ℕ) where
  lock : L.Shared
  counters : Counters
  pc : Fin N → Pc L

namespace Bench
variable {L : Lock} {N : ℕ}

/-- The lock is initialised, the counters are not, and no thread has started. -/
def start (counters : Counters) : Bench L N := ⟨L.init, counters, fun _ => .head 0⟩

/-- A thread changes the memory and moves on. -/
def move (s : Bench L N) (t : Fin N) (lock : L.Shared) (counters : Counters) (pc : Pc L) : Bench L N :=
  ⟨lock, counters, Function.update s.pc t pc⟩

/-- A thread makes its next access. -/
def step (iterations work_length : ℕ) (s : Bench L N) (t : Fin N) : Bench L N :=
  let (lock, counters, pc) :=
    (s.pc t).next iterations work_length (counter_id t) s.lock s.counters
  s.move t lock counters pc

/-- The state after a schedule. -/
def after (L : Lock) {N : ℕ} (iterations work_length : ℕ) (counters : Counters) (h : List (Fin N)) :
    Bench L N :=
  run (step iterations work_length) (start counters) h

/-- The threads as the lock sees them. -/
def threads (s : Bench L N) : Threads L N := ⟨s.lock, fun t => (s.pc t).phase⟩

/-- The thread is inside its critical section. -/
def inside (s : Bench L N) (t : Fin N) : Prop := (s.pc t).phase.inside

end Bench

section Simulation
variable {L : Lock} {N : ℕ} {s : Bench L N} {t : Fin N} {iterations work_length : ℕ}

/-- To the lock a step of the benchmark is a change of phase. -/
lemma threads_move (lock : L.Shared) (counters : Counters) (pc : Pc L) :
    (s.move t lock counters pc).threads = s.threads.move t lock pc.phase := by
  have phases : (fun u => (Function.update s.pc t pc u).phase) =
      Function.update (fun u => (s.pc u).phase) t pc.phase :=
    Function.comp_update Pc.phase s.pc t pc
  simp only [Bench.threads, Bench.move, Threads.move, phases]

/-- A step that does not concern the lock. -/
lemma threads_stutter {counters : Counters} {pc : Pc L} (same : pc.phase = (s.pc t).phase) :
    (s.move t s.lock counters pc).threads = run Threads.step s.threads [] := by
  rw [threads_move, same]
  simp [Bench.threads, Threads.move]

/-- Every step of the benchmark is a step of the lock's threads, or no step. -/
lemma threads_step (s : Bench L N) (t : Fin N) :
    ∃ g, (s.step iterations work_length t).threads = run Threads.step s.threads g := by
  cases e : s.pc t with
  | head i =>
    by_cases lt : i < iterations
    · refine ⟨[t], ?_⟩
      simp only [Bench.step, e, Pc.next, if_pos lt, threads_move]
      simp [Threads.step, Bench.threads, e, Pc.phase, Phase.next]
    · refine ⟨[], ?_⟩
      simp only [Bench.step, e, Pc.next, if_neg lt]
      exact threads_stutter (by rw [e]; rfl)
  | acquiring i a =>
    refine ⟨[t], ?_⟩
    simp only [Bench.step, e, Pc.next, threads_move]
    simp only [run_cons, run_nil, Threads.step, Bench.threads, e, Pc.phase, Phase.next]
    cases (L.acquire_step a s.lock).2 with
    | none => rfl
    | some a => rfl
  | work i j =>
    by_cases lt : j < work_length
    · refine ⟨[], ?_⟩
      simp only [Bench.step, e, Pc.next, if_pos lt]
      exact threads_stutter (by rw [e]; rfl)
    · refine ⟨[t], ?_⟩
      simp only [Bench.step, e, Pc.next, if_neg lt, threads_move]
      simp [Threads.step, Bench.threads, e, Pc.phase, Phase.next]
  | loaded i j v =>
    refine ⟨[], ?_⟩
    simp only [Bench.step, e, Pc.next]
    exact threads_stutter (by rw [e]; rfl)
  | releasing i r =>
    refine ⟨[t], ?_⟩
    simp only [Bench.step, e, Pc.next, threads_move]
    simp only [run_cons, run_nil, Threads.step, Bench.threads, e, Pc.phase, Phase.next]
    cases (L.release_step r s.lock).2 with
    | none => rfl
    | some r => rfl
  | done =>
    refine ⟨[], ?_⟩
    simp only [Bench.step, e, Pc.next]
    exact threads_stutter (by rw [e])

/-- Every run of the benchmark is a schedule of the lock's threads. -/
lemma threads_after (counters : Counters) (h : List (Fin N)) : ∃ g,
    (Bench.after L iterations work_length counters h).threads = Threads.after L g :=
  run_simulates threads_step (Bench.start counters) h

/-- A lock that excludes does so in the benchmark. -/
lemma excludes_after (excludes : L.Excludes N) (counters : Counters) (h : List (Fin N)) {t u : Fin N}
    (ht : (Bench.after L iterations work_length counters h).inside t)
    (hu : (Bench.after L iterations work_length counters h).inside u) : t = u := by
  obtain ⟨g, e⟩ : ∃ g, (Bench.after L iterations work_length counters h).threads =
      Threads.after L g := threads_after counters h
  have ht' : (Bench.after L iterations work_length counters h).threads.inside t := ht
  have hu' : (Bench.after L iterations work_length counters h).threads.inside u := hu
  rw [e] at ht' hu'
  exact excludes g t u ht' hu'

end Simulation

section Count
variable {L : Lock} {N : ℕ} {s : Bench L N} {t : Fin N} {iterations work_length : ℕ}
variable {init : Counters}

/-- The threads of a counter. -/
def users (N : ℕ) (c : Fin NUM_COUNTERS) : Finset (Fin N) :=
  Finset.univ.filter fun t => counter_id t = c

/-- The increments of a counter that its threads have made. -/
def increments (iterations work_length : ℕ) (pc : Fin N → Pc L) (c : Fin NUM_COUNTERS) : ℕ :=
  ∑ t ∈ users N c, (pc t).count iterations work_length

/-- The loop counters are in range, a value that was loaded is still the one in memory, and each counter
is its initial value plus the increments of its threads. -/
structure Counted (iterations work_length : ℕ) (init : Counters) (s : Bench L N) : Prop where
  bounded : ∀ t, (s.pc t).bounded iterations work_length
  loaded : ∀ {t i j v}, s.pc t = .loaded i j v → v = s.counters (counter_id t)
  counters : ∀ c, s.counters c =
    init c + BitVec.ofNat 32 (increments iterations work_length s.pc c)

/-- Before the first step the counters are as they were. -/
lemma Counted.start :
    Counted iterations work_length init (Bench.start init : Bench L N) where
  bounded _ := Nat.zero_le _
  loaded h := by cases h
  counters c := by
    simp [increments, Bench.start, Pc.count]

/-- One thread moves on by `d` increments. -/
lemma increments_move (pc : Fin N → Pc L) (t : Fin N) {pc' : Pc L} {d : ℕ}
    (count : pc'.count iterations work_length = (pc t).count iterations work_length + d)
    (c : Fin NUM_COUNTERS) :
    increments iterations work_length (Function.update pc t pc') c =
      increments iterations work_length pc c + if counter_id t = c then d else 0 := by
  have counts : ∀ u, (Function.update pc t pc' u).count iterations work_length =
      (pc u).count iterations work_length + if t = u then d else 0 := by
    intro u
    by_cases e : t = u
    · subst e
      rw [Function.update_self, if_pos rfl, count]
    · rw [Function.update_of_ne (Ne.symm e), if_neg e, Nat.add_zero]
  have mem : t ∈ users N c ↔ counter_id t = c := by simp [users]
  simp only [increments, counts, Finset.sum_add_distrib, Finset.sum_ite_eq, mem]

/-- A step that does not store to a counter. -/
lemma Counted.quiet (counted : Counted iterations work_length init s) {lock : L.Shared} {pc : Pc L}
    (bounded : pc.bounded iterations work_length)
    (count : pc.count iterations work_length = (s.pc t).count iterations work_length)
    (loaded : ∀ {i j v}, pc = .loaded i j v → v = s.counters (counter_id t)) :
    Counted iterations work_length init (s.move t lock s.counters pc) where
  bounded u := by
    by_cases e : u = t
    · subst e
      simpa [Bench.move] using bounded
    · simpa [Bench.move, Function.update_of_ne e] using counted.bounded u
  loaded {u i j v} h := by
    by_cases e : u = t
    · subst e
      exact loaded (by simpa [Bench.move] using h)
    · exact counted.loaded (by simpa [Bench.move, Function.update_of_ne e] using h)
  counters c := by
    have moved := increments_move s.pc t (d := 0) count c
    rw [ite_self, Nat.add_zero] at moved
    simp only [Bench.move, moved]
    exact counted.counters c

/-- A store adds one to the counter of its thread, because no other thread is inside. -/
lemma Counted.store (counted : Counted iterations work_length init s) {i j : ℕ} {v : BitVec 32}
    (e : s.pc t = .loaded i j v) (alone : ∀ u, s.inside u → u = t) :
    Counted iterations work_length init
      (s.move t s.lock (Function.update s.counters (counter_id t) (v + 1)) (.work i (j + 1))) where
  bounded u := by
    by_cases same : u = t
    · subst same
      have := counted.bounded u
      rw [e] at this
      simpa [Bench.move] using ⟨this.1, this.2⟩
    · simpa [Bench.move, Function.update_of_ne same] using counted.bounded u
  loaded {u i' j' v'} h := by
    by_cases same : u = t
    · subst same
      simp [Bench.move] at h
    · have h' : s.pc u = .loaded i' j' v' := by
        simpa [Bench.move, Function.update_of_ne same] using h
      have inside : s.inside u := by
        rw [Bench.inside, h']
        trivial
      exact (same (alone u inside)).elim
  counters c := by
    have count : (Pc.work i (j + 1) : Pc L).count iterations work_length =
        (s.pc t).count iterations work_length + 1 := by
      rw [e]
      rfl
    have moved := increments_move s.pc t count c
    simp only [Bench.move, moved]
    by_cases same : counter_id t = c
    · subst same
      rw [Function.update_self, if_pos rfl, counted.loaded e, counted.counters, BitVec.ofNat_add,
        BitVec.add_assoc]
      rfl
    · rw [Function.update_of_ne (Ne.symm same), if_neg same, Nat.add_zero]
      exact counted.counters c

/-- Every step keeps the counters right, as long as one thread at most is inside. -/
lemma Counted.step (counted : Counted iterations work_length init s)
    (excl : ∀ t u, s.inside t → s.inside u → t = u) (t : Fin N) :
    Counted iterations work_length init (s.step iterations work_length t) := by
  have bounded := counted.bounded t
  cases e : s.pc t with
  | head i =>
    rw [e] at bounded
    by_cases lt : i < iterations
    · simp only [Bench.step, e, Pc.next, if_pos lt]
      exact counted.quiet lt (by rw [e]; rfl) (by simp)
    · simp only [Bench.step, e, Pc.next, if_neg lt]
      have last : i = iterations := Nat.le_antisymm bounded (Nat.not_lt.mp lt)
      exact counted.quiet trivial (by rw [e, last]; rfl) (by simp)
  | acquiring i a =>
    rw [e] at bounded
    simp only [Bench.step, e, Pc.next]
    cases (L.acquire_step a s.lock).2 with
    | none => exact counted.quiet ⟨bounded, Nat.zero_le _⟩ (by rw [e]; rfl) (by simp)
    | some a => exact counted.quiet bounded (by rw [e]; rfl) (by simp)
  | work i j =>
    rw [e] at bounded
    by_cases lt : j < work_length
    · simp only [Bench.step, e, Pc.next, if_pos lt]
      refine counted.quiet ⟨bounded.1, lt⟩ (by rw [e]; rfl) fun h => ?_
      cases h
      rfl
    · simp only [Bench.step, e, Pc.next, if_neg lt]
      have last : j = work_length := Nat.le_antisymm bounded.2 (Nat.not_lt.mp lt)
      refine counted.quiet bounded.1 ?_ (by simp)
      rw [e, last]
      exact Nat.succ_mul i work_length
  | loaded i j v =>
    simp only [Bench.step, e, Pc.next]
    refine counted.store e fun u inside => excl u t inside ?_
    rw [Bench.inside, e]
    trivial
  | releasing i r =>
    rw [e] at bounded
    simp only [Bench.step, e, Pc.next]
    cases (L.release_step r s.lock).2 with
    | none => exact counted.quiet bounded (by rw [e]; rfl) (by simp)
    | some r => exact counted.quiet bounded (by rw [e]; rfl) (by simp)
  | done =>
    simp only [Bench.step, e, Pc.next]
    exact counted.quiet trivial (by rw [e]) (by simp)

/-- The counters are right after every schedule. -/
lemma counted_after (excludes : L.Excludes N) (h : List (Fin N)) :
    Counted iterations work_length init (Bench.after L iterations work_length init h) := by
  induction h using List.reverseRecOn with
  | nil => exact .start
  | append_singleton h t ih =>
    rw [Bench.after, run_append]
    -- the schedule so far is one of the lock's threads, and those exclude
    exact ih.step (fun t u => excludes_after excludes init h) t

end Count

/-- All three locks exclude. -/
lemma lock_excludes (type : lock_types) {N : ℕ} (le : type = .TICKET → N ≤ 65536) :
    type.lock.Excludes N := by
  cases type with
  | COMPARE_AND_SWAP => exact two_state_excludes caslock_two_state
  | TEST_AND_SET => exact two_state_excludes taslock_two_state
  | TICKET => exact ticket_excludes (le rfl)

/-- The threads that use a counter. -/
lemma users_eq (N : ℕ) (c : Fin NUM_COUNTERS) :
    users N c = Finset.univ.filter fun t : Fin N => t.val % NUM_COUNTERS = c.val := by
  apply Finset.filter_congr
  intro t _
  rw [Fin.ext_iff]
  rfl

/-- The increments of a counter when all threads have finished. -/
lemma increments_done {L : Lock} {N iterations work_length : ℕ} {pc : Fin N → Pc L}
    (done : ∀ t, pc t = .done) (c : Fin NUM_COUNTERS) :
    increments iterations work_length pc c = (users N c).card * iterations * work_length := by
  simp only [increments, done, Pc.count, Finset.sum_const, smul_eq_mul, Nat.mul_assoc]

/-- A lock of two states is taken exactly while one thread is inside, also in the benchmark. -/
lemma bench_taken {L : Lock} {taken : L.Shared} (two : TwoState L taken) (ne : taken ≠ L.init) {N : ℕ}
    (iterations work_length : ℕ) (init : Counters) (h : List (Fin N)) :
    (Bench.after L iterations work_length init h).lock = taken ↔
      ∃! t, (Bench.after L iterations work_length init h).inside t := by
  obtain ⟨g, e⟩ : ∃ g, (Bench.after L iterations work_length init h).threads = Threads.after L g :=
    threads_after init h
  have one := two_state_after two g
  rw [← e] at one
  exact one.iff ne

/-- No increment is lost under any of the three spin locks, whatever the schedule and the initial
counters: when all threads have finished, every counter has grown by the increments of its threads. The
word of the two word locks is 1 exactly while one thread is inside its critical section. -/
theorem counters_exact (N iterations work_length : ℕ) (init : Counters) (h : List (Fin N)) :
    (∀ type : lock_types, (type = .TICKET → N ≤ 65536) →
      let s := Bench.after type.lock iterations work_length init h
      (∀ t, s.pc t = .done) → ∀ c, s.counters c = init c + BitVec.ofNat 32
        ((Finset.univ.filter fun t : Fin N => t.val % NUM_COUNTERS = c.val).card *
          iterations * work_length)) ∧
    ((Bench.after caslock iterations work_length init h).lock = (1 : uint) ↔
      ∃! t, (Bench.after caslock iterations work_length init h).inside t) ∧
    ((Bench.after taslock iterations work_length init h).lock = (1 : uint) ↔
      ∃! t, (Bench.after taslock iterations work_length init h).inside t) := by
  have one : (1 : uint) ≠ 0 := by decide
  refine ⟨fun type le done c => ?_, bench_taken caslock_two_state one iterations work_length init h,
    bench_taken taslock_two_state one iterations work_length init h⟩
  have counted : Counted iterations work_length init
      (Bench.after type.lock iterations work_length init h) :=
    counted_after (lock_excludes type le) h
  rw [counted.counters, increments_done done, users_eq]

/-- Two threads take turns at the compare-and-swap lock, so that each calls for it while the other one has
it, and the first counter and the second one grow by the increments of one thread each. -/
theorem counters_exact_two :
    let h : List (Fin 2) := (List.replicate 20 [0, 1]).flatten
    (∀ c, (Bench.after caslock 2 1 (fun _ => 41) h).counters c = if c.val < 2 then 43 else 41) ∧
      ((Bench.after caslock 2 1 (fun _ => 41) h).lock = (1 : uint) ↔
        ∃! t, (Bench.after caslock 2 1 (fun _ => 41) h).inside t) := by
  intro h
  have exact := counters_exact 2 2 1 (fun _ => 41) h
  have done : ∀ t, (Bench.after caslock 2 1 (fun _ => 41) h).pc t = .done := by
    intro t
    fin_cases t <;> rfl
  exact ⟨fun c => (exact.1 .COMPARE_AND_SWAP (by decide) done c).trans (by revert c; decide), exact.2.1⟩

end CS519.Locks
