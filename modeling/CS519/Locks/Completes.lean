import Mathlib.Algebra.Order.BigOperators.Group.Finset
import CS519.Fair
import CS519.Locks.Blocking

/-!
# The benchmark ends

A thread that cannot have the lock stays where it is, so the benchmark ends only if the lock lets somebody
in whenever nobody is inside. `Serves` says this of a lock, and that its two procedures have an end. It holds
of the locks of two states and of the ticket lock, where the one who moves on is the head of the queue.

With such a lock every access of a thread of `main.c` changes nothing or brings the thread closer to the end
of `inc_thread` (`Pc.left`), and where no thread can change anything all of them are at that end
(`done_of_settled`). So the benchmark ends under every fair schedule, for all lock types that `main` accepts,
and then no increment is missing (`bench_completes`).
-/

namespace CS519.Locks
open Function

/-- Accesses of the two procedures change nothing or lead on, by the measures of the places in them, and
where nobody is inside and somebody calls for the lock, somebody moves on. -/
structure Serves (L : Lock) (N : ℕ) (acquire_left : L.Acquire → ℕ) (release_left : L.Release → ℕ) : Prop where
  acquire : ∀ (h : List (Fin N)) {t a}, (Threads.after L h).phase t = .acquiring a →
    L.acquire_step a (Threads.after L h).lock = ((Threads.after L h).lock, some a) ∨
      ∀ a' ∈ (L.acquire_step a (Threads.after L h).lock).2, acquire_left a' < acquire_left a
  release : ∀ (h : List (Fin N)) {t r}, (Threads.after L h).phase t = .releasing r →
    ∀ r' ∈ (L.release_step r (Threads.after L h).lock).2, release_left r' < release_left r
  entry : ∀ (h : List (Fin N)), (∀ t, ¬(Threads.after L h).inside t) →
    ∀ {t a}, (Threads.after L h).phase t = .acquiring a → ∃ u b,
      (Threads.after L h).phase u = .acquiring b ∧
        L.acquire_step b (Threads.after L h).lock ≠ ((Threads.after L h).lock, some b)

/-- In a lock of two states whoever calls for the free lock has it. -/
lemma TwoState.serves {L : Lock} {taken : L.Shared} (two : TwoState L taken) (N : ℕ) :
    Serves L N (fun _ => 0) (fun _ => 0) where
  acquire h t a _ := by
    cases two_state_after two h with
    | inl free =>
      right
      rw [free.1, two.free a]
      simp
    | inr held =>
      obtain ⟨_, lock, _⟩ := held
      left
      rw [lock, two.blocked a]
  release h t r e := by
    have here : (Threads.after L h).inside t := by
      rw [Threads.inside, e]
      trivial
    rw [((two_state_after two h).of_inside here).1, two.release r]
    simp
  entry h out t a e := by
    refine ⟨t, a, e, ?_⟩
    rw [(two_state_after two h).of_outside out, two.free a]
    simp

/-- How many accesses it takes to the end of `ticket_acquire` when nobody is in the way. -/
def TicketAcquire.left : TicketAcquire → ℕ
  | fetch => 1
  | spin _ => 0

def TicketRelease.left : TicketRelease → ℕ
  | read => 1
  | write _ => 0

/-- In the ticket lock the head of the queue moves on, or a thread without a ticket takes one. -/
lemma ticket_serves {N : ℕ} (le : N ≤ 65536) :
    Serves ticket_lock N TicketAcquire.left TicketRelease.left where
  acquire h t a _ := by
    cases a with
    | fetch =>
      right
      simp [ticket_acquire, TicketAcquire.left]
    | spin my_ticket =>
      by_cases turn : (Threads.after ticket_lock h).lock.now_serving.setWidth 32 = my_ticket
      · right
        simp [ticket_acquire, turn]
      · left
        simp [ticket_acquire, turn]
  release h t r _ := by
    cases r with
    | read => simp [ticket_release, TicketRelease.left]
    | write v => simp [ticket_release]
  entry h out t a e := by
    cases a with
    | fetch => exact ⟨t, _, e, fun same => by simp [ticket_acquire] at same⟩
    | spin my_ticket =>
      obtain ⟨served, queue, holder, hist⟩ := history_after le h
      have mem : t ∈ queue := hist.queued.mem_iff.mpr (.inr ⟨my_ticket, e⟩)
      obtain ⟨first, head⟩ : ∃ first, queue.head? = some first := by
        cases queue with
        | nil => simp at mem
        | cons first rest => exact ⟨first, rfl⟩
      have turn := (hist.queued.turn_iff le).mpr ⟨head, out first⟩
      exact ⟨first, _, turn, fun same => by simp [ticket_acquire] at same⟩

/-! ## The work of a thread -/

section Work
variable {L : Lock} {acquire_left : L.Acquire → ℕ} {release_left : L.Release → ℕ}
variable {iterations work_length : ℕ}

section
variable (acquire_left release_left work_length)

/-- The accesses of an iteration, those that change nothing aside. -/
def turn : ℕ := acquire_left L.acquire + 1 + (2 * work_length + 1) + (release_left L.release + 1) + 1

variable (iterations)

/-- How many accesses a thread still has to make, those that change nothing aside. -/
def Pc.left : Pc L → ℕ
  | head i => (iterations - i) * turn acquire_left release_left work_length + 1
  | acquiring i a => (iterations - (i + 1)) * turn acquire_left release_left work_length + 1 +
      (release_left L.release + 1) + (2 * work_length + 1) + (acquire_left a + 1)
  | work i j => (iterations - (i + 1)) * turn acquire_left release_left work_length + 1 +
      (release_left L.release + 1) + (2 * (work_length - j) + 1)
  | loaded i j _ => (iterations - (i + 1)) * turn acquire_left release_left work_length + 1 +
      (release_left L.release + 1) + 2 * (work_length - j)
  | releasing i r => (iterations - (i + 1)) * turn acquire_left release_left work_length + 1 +
      (release_left r + 1)
  | done => 0

end

/-- An access leaves everything as it is, or less is left to do. -/
lemma Pc.next_lowers {pc : Pc L} (c : Fin NUM_COUNTERS) {lock : L.Shared} (counters : Counters)
    (acquire : ∀ {a}, pc.phase = .acquiring a → L.acquire_step a lock = (lock, some a) ∨
      ∀ a' ∈ (L.acquire_step a lock).2, acquire_left a' < acquire_left a)
    (release : ∀ {r}, pc.phase = .releasing r →
      ∀ r' ∈ (L.release_step r lock).2, release_left r' < release_left r)
    (bounded : pc.bounded iterations work_length) :
    pc.next iterations work_length c lock counters = (lock, counters, pc) ∨
      (pc.next iterations work_length c lock counters).2.2.left acquire_left release_left iterations
        work_length < pc.left acquire_left release_left iterations work_length := by
  cases pc with
  | head i =>
    right
    by_cases lt : i < iterations
    · obtain ⟨d, rfl⟩ := Nat.exists_eq_add_of_lt lt
      have first : i + d + 1 - i = d + 1 := by omega
      have rest : i + d + 1 - (i + 1) = d := by omega
      simp only [next, if_pos lt, left, first, rest, Nat.succ_mul]
      rw [turn]
      omega
    · simp only [next, if_neg lt, left]
      exact Nat.succ_pos _
  | acquiring i a =>
    rcases acquire rfl with same | less
    · left
      simp only [next, same]
      rfl
    · right
      simp only [next]
      cases e : (L.acquire_step a lock).2 with
      | none =>
        simp only [Option.elim, left]
        omega
      | some a' =>
        have := less a' e
        simp only [Option.elim, left]
        omega
  | work i j =>
    right
    by_cases lt : j < work_length
    · simp only [next, if_pos lt, left]
      omega
    · simp only [next, if_neg lt, left]
      omega
  | loaded i j v =>
    right
    have lt : j < work_length := bounded.2
    simp only [next, left]
    omega
  | releasing i r =>
    right
    simp only [next]
    cases e : (L.release_step r lock).2 with
    | none =>
      simp only [Option.elim, left]
      omega
    | some r' =>
      have := release rfl r' e
      simp only [Option.elim, left]
      omega
  | done => exact .inl rfl

end Work

/-! ## The end -/

section End
variable {L : Lock} {N : ℕ} {acquire_left : L.Acquire → ℕ} {release_left : L.Release → ℕ}
variable {iterations work_length : ℕ} {init : Counters} {s : Bench L N}

/-- What all threads still have to do. -/
def Bench.left (acquire_left : L.Acquire → ℕ) (release_left : L.Release → ℕ) (iterations work_length : ℕ)
    (s : Bench L N) : ℕ :=
  ∑ t, (s.pc t).left acquire_left release_left iterations work_length

/-- The states that the benchmark can reach. -/
def Reached (iterations work_length : ℕ) (init : Counters) (s : Bench L N) : Prop :=
  ∃ h, s = Bench.after L iterations work_length init h

/-- Every step keeps the invariant. -/
lemma Reached.step (reached : Reached iterations work_length init s) (t : Fin N) :
    Reached iterations work_length init (s.step iterations work_length t) := by
  obtain ⟨h, rfl⟩ := reached
  exact ⟨h ++ [t], by rw [Bench.after, Bench.after, run_append]; rfl⟩

/-- In a reachable state the lock is in a state that its threads can bring it to. -/
lemma Reached.threads (reached : Reached iterations work_length init s) :
    ∃ g, s.threads = Threads.after L g := by
  obtain ⟨h, rfl⟩ := reached
  exact threads_after init h

/-- One thread makes its next access, and the others have as much to do as before. -/
lemma Bench.left_step (acquire_left : L.Acquire → ℕ) (release_left : L.Release → ℕ)
    (iterations work_length : ℕ) (s : Bench L N) (t : Fin N) :
    (s.step iterations work_length t).left acquire_left release_left iterations work_length +
        (s.pc t).left acquire_left release_left iterations work_length =
      s.left acquire_left release_left iterations work_length +
        ((s.pc t).next iterations work_length (counter_id t) s.lock s.counters).2.2.left acquire_left
          release_left iterations work_length :=
  sum_update (fun _ pc => pc.left acquire_left release_left iterations work_length) s.pc
    (Finset.mem_univ t) _

/-- An access changes nothing, or less is left to do. -/
lemma bench_works_off (serves : Serves L N acquire_left release_left) (excludes : L.Excludes N)
    (iterations work_length : ℕ) (init : Counters) :
    WorksOff (Bench.step iterations work_length) (Reached (L := L) (N := N) iterations work_length init)
      (Bench.left acquire_left release_left iterations work_length) where
  preserved _ t reached := reached.step t
  lowers s t reached := by
    obtain ⟨g, threads⟩ := reached.threads
    have lock : s.lock = (Threads.after L g).lock := congrArg Threads.lock threads
    have phase : (s.pc t).phase = (Threads.after L g).phase t := congrFun (congrArg Threads.phase threads) t
    have bounded : (s.pc t).bounded iterations work_length := by
      obtain ⟨h, rfl⟩ := reached
      exact (counted_after excludes h).bounded t
    refine (Pc.next_lowers (counter_id t) s.counters
      (fun e => serves.acquire g (phase.symm.trans e)) (fun e => serves.release g (phase.symm.trans e))
      bounded).imp (fun same => ?_) fun less => ?_
    · rw [← lock] at same
      simp only [Bench.step, same]
      rw [Bench.move, update_eq_self]
    · rw [← lock] at less
      have sum := Bench.left_step acquire_left release_left iterations work_length s t
      omega

/-- What is left at the start. -/
lemma left_start (L : Lock) (N : ℕ) (acquire_left : L.Acquire → ℕ) (release_left : L.Release → ℕ)
    (iterations work_length : ℕ) (init : Counters) :
    Bench.left acquire_left release_left iterations work_length (Bench.start init : Bench L N) =
      N * (iterations * turn acquire_left release_left work_length + 1) := by
  simp [Bench.left, Bench.start, Pc.left]

/-- The access of a thread that changes nothing. -/
lemma next_of_stay {t : Fin N} (stay : s.step iterations work_length t = s) :
    (s.pc t).next iterations work_length (counter_id t) s.lock s.counters = (s.lock, s.counters, s.pc t) := by
  have lock : (s.step iterations work_length t).lock =
      ((s.pc t).next iterations work_length (counter_id t) s.lock s.counters).1 := rfl
  have counters : (s.step iterations work_length t).counters =
      ((s.pc t).next iterations work_length (counter_id t) s.lock s.counters).2.1 := rfl
  have pc : (s.step iterations work_length t).pc t =
      ((s.pc t).next iterations work_length (counter_id t) s.lock s.counters).2.2 := update_self ..
  rw [stay] at lock counters pc
  exact Prod.ext lock.symm (Prod.ext counters.symm pc.symm)

/-- A state in which no thread can change anything is one in which all threads have finished. -/
lemma done_of_settled (serves : Serves L N acquire_left release_left)
    (reached : Reached iterations work_length init s)
    (settled : ∀ t, s.step iterations work_length t = s) (t : Fin N) : s.pc t = .done := by
  have stays := fun u => next_of_stay (settled u)
  obtain ⟨g, threads⟩ := reached.threads
  have lock : s.lock = (Threads.after L g).lock := congrArg Threads.lock threads
  have phase : ∀ u, (Threads.after L g).phase u = (s.pc u).phase :=
    fun u => (congrFun (congrArg Threads.phase threads) u).symm
  -- whoever is in the critical section or leaves it can move on
  have out : ∀ u, ¬(s.pc u).phase.inside := by
    intro u inside
    have stay := congrArg (·.2.2) (stays u)
    cases e : s.pc u with
    | head i => rw [e] at inside; exact inside
    | acquiring i a => rw [e] at inside; exact inside
    | work i j =>
      simp only [e, Pc.next] at stay
      split_ifs at stay
    | loaded i j v =>
      simp [e, Pc.next] at stay
    | releasing i r =>
      have less := serves.release g ((phase u).trans (congrArg Pc.phase e))
      simp only [e, Pc.next, lock] at stay
      cases final : (L.release_step r (Threads.after L g).lock).2 with
      | none => simp [final] at stay
      | some r' =>
        have less := less r' final
        simp [final] at stay
        simp [stay] at less
    | done => rw [e] at inside; exact inside
  cases e : s.pc t with
  | head i =>
    have stay := congrArg (·.2.2) (stays t)
    simp only [e, Pc.next] at stay
    split_ifs at stay
  | acquiring i a =>
    -- then somebody could enter
    obtain ⟨u, b, calls, moves⟩ := serves.entry g (fun u inside => out u (by rwa [← phase u]))
      ((phase t).trans (congrArg Pc.phase e))
    rw [phase u] at calls
    have stay := stays u
    cases eu : s.pc u with
    | acquiring j b' =>
      rw [eu] at calls
      injection calls with same
      subst same
      simp only [eu, Pc.next, Prod.mk.injEq, true_and] at stay
      obtain ⟨word, place⟩ := stay
      rw [← lock] at moves
      refine absurd (Prod.ext word ?_) moves
      cases again : (L.acquire_step b' s.lock).2 with
      | none => simp [again] at place
      | some a' => simpa [again] using place
    | _ => simp [eu, Pc.phase] at calls
  | work i j => exact (out t (by rw [e]; trivial)).elim
  | loaded i j v => exact (out t (by rw [e]; trivial)).elim
  | releasing i r => exact (out t (by rw [e]; trivial)).elim
  | done => rfl

end End

/-- The locks that serve their threads: all of them, with no more than two accesses of a procedure that
change something. -/
lemma lock_t_serves (l : lock_t) {N : ℕ} (le : l = .spin .TICKET → N ≤ 65536) :
    ∃ acquire_left release_left, Serves l.lock N acquire_left release_left ∧
      ∀ work_length, turn acquire_left release_left work_length ≤ 2 * work_length + 6 := by
  have two_state : ∀ {L : Lock} {taken : L.Shared}, TwoState L taken →
      ∃ acquire_left release_left, Serves L N acquire_left release_left ∧
        ∀ work_length, turn acquire_left release_left work_length ≤ 2 * work_length + 6 := by
    intro L taken two
    refine ⟨_, _, two.serves N, fun work_length => ?_⟩
    rw [turn]
    omega
  cases l with
  | spin type =>
    cases type with
    | COMPARE_AND_SWAP => exact two_state caslock_two_state
    | TEST_AND_SET => exact two_state taslock_two_state
    | TICKET =>
      refine ⟨_, _, ticket_serves (le rfl), fun work_length => ?_⟩
      show 1 + 1 + (2 * work_length + 1) + (1 + 1) + 1 ≤ _
      omega
  | MUTEX => exact two_state mutex_two_state
  | SEMAPHORE => exact two_state semaphore_two_state

/-- The benchmark ends: for every lock type that `main` accepts, no more than `2 * work_length + 6` accesses
for each iteration of a thread and one more for the thread change anything, and under every fair schedule
all threads finish and each counter has been incremented as often as its threads do. -/
theorem bench_completes (lock_type : ℤ) (valid : 1 ≤ lock_type ∧ lock_type ≤ 5) (N : ℕ)
    (le : lock_type = 3 → N ≤ 65536) (iterations work_length : ℕ) (init : Counters) :
    ∃ l, create_lock lock_type = some l ∧
      (∀ h : List (Fin N), Always (Bench.step iterations work_length)
          (fun s t => s.step iterations work_length t ≠ s) (Bench.start init : Bench l.lock N) h →
        h.length ≤ N * (iterations * (2 * work_length + 6) + 1)) ∧
      ∀ w, Fair (fun _ : Fin N => True) w → ∃ n, ∀ k, n ≤ k →
        (∀ t, (Bench.after l.lock iterations work_length init (firsts w k)).pc t = .done) ∧
        ∀ c, (Bench.after l.lock iterations work_length init (firsts w k)).counters c =
          init c + BitVec.ofNat 32 ((users N c).card * iterations * work_length) := by
  obtain ⟨l, made, ticket⟩ : ∃ l, create_lock lock_type = some l ∧ (l = .spin .TICKET → lock_type = 3) := by
    obtain ⟨low, high⟩ := valid
    interval_cases lock_type <;> exact ⟨_, rfl, by decide⟩
  have few : l = .spin .TICKET → N ≤ 65536 := fun e => le (ticket e)
  have excludes := lock_t_excludes l few
  obtain ⟨acquire_left, release_left, serves, short⟩ := lock_t_serves l few
  have off := bench_works_off serves excludes iterations work_length init
  have start : Reached iterations work_length init (Bench.start init : Bench l.lock N) := ⟨[], rfl⟩
  refine ⟨l, made, fun h moves => ?_, fun w fair => ?_⟩
  · have bound := off.length_le start moves
    have total := left_start l.lock N acquire_left release_left iterations work_length init
    rw [total] at bound
    have each := Nat.mul_le_mul_left iterations (short work_length)
    exact (Nat.le_of_add_right_le bound).trans (Nat.mul_le_mul_left N (Nat.add_le_add_right each 1))
  · obtain ⟨n, settled, same⟩ := off.settles start fair
    have done := done_of_settled serves ⟨firsts w n, rfl⟩ fun t => settled t trivial
    refine ⟨n, fun k hk => ?_⟩
    have final : Bench.after l.lock iterations work_length init (firsts w k) =
        Bench.after l.lock iterations work_length init (firsts w n) := same k hk
    rw [final]
    refine ⟨done, fun c => ?_⟩
    rw [(counted_after excludes (firsts w n)).counters, increments_done done]

/-- Two threads take turns at a semaphore. -/
theorem bench_completes_two : ∃ n, ∀ k, n ≤ k → ∀ t,
    (Bench.after (lock_t.lock .SEMAPHORE) 3 4 (fun _ => 41) (firsts (round_robin (0 : Fin 2) [1]) k)).pc t =
      .done := by
  obtain ⟨l, made, _, all⟩ := bench_completes 5 (by decide) 2 (by decide) 3 4 fun _ => 41
  obtain rfl : lock_t.SEMAPHORE = l := Option.some.inj made
  obtain ⟨n, ends⟩ := all (round_robin 0 [1]) fun t _ => fair_round_robin 0 [1] t (by fin_cases t <;> simp)
  exact ⟨n, fun k hk => (ends k hk).1⟩

end CS519.Locks
