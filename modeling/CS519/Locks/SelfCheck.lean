import Mathlib.Data.Int.CardIntervalMod
import CS519.Locks.Bench

/-!
# The self-check of the benchmark

`main` prints every counter beside the value it should have. The value is computed from the quotient of
the threads by the counters, the counters themselves start from what `malloc` returns and are incremented
by as many threads as the remainder gives them. `self_check_iff` says for which initial memory the two
agree.

Nothing is assumed of the lock but that it excludes in the run at hand, so that the result covers the lock
types of the library as well.
-/

namespace CS519.Locks

/-- The value printed beside each counter. -/
def expected_value (num_threads iterations work_length : ℕ) : BitVec 32 :=
  .ofNat 32 (num_threads / NUM_COUNTERS * iterations * work_length)

/-- At most one thread is inside, in every state of the run. -/
def ExclusiveRun (L : Lock) {N : ℕ} (iterations work_length : ℕ) (init : Counters) (h : List (Fin N)) :
    Prop :=
  Throughout (Bench.step (L := L) iterations work_length)
    (fun s => ∀ t u, s.inside t → s.inside u → t = u) (Bench.start init) h

/-- The initial memory for which the values agree: a counter of one thread more than the others starts so
much lower, the others start at 0. -/
def balanced_start (N iterations work_length : ℕ) (init : Counters) : Prop :=
  ∀ c, init c = if c.val < N % NUM_COUNTERS then -BitVec.ofNat 32 (iterations * work_length) else 0

instance (N iterations work_length : ℕ) (init : Counters) :
    Decidable (balanced_start N iterations work_length init) :=
  inferInstanceAs (Decidable (∀ _, _))

section
variable {L : Lock} {N iterations work_length : ℕ} {init : Counters}

/-- The counters are right in an exclusive run. -/
lemma counted_exclusive {h : List (Fin N)}
    (exclusive : ExclusiveRun L iterations work_length init h) :
    Counted iterations work_length init (Bench.after L iterations work_length init h) := by
  induction h using List.reverseRecOn with
  | nil => exact .start
  | append_singleton h t ih =>
    have before : ExclusiveRun L iterations work_length init h :=
      fun g pre => exclusive g (pre.trans (List.prefix_append h [t]))
    rw [Bench.after, run_append]
    exact (ih before).step (exclusive h (List.prefix_append h [t])) t

/-- The threads of a counter are as many as the quotient, and one more for the remainder. -/
lemma card_users (N : ℕ) (c : Fin NUM_COUNTERS) :
    (users N c).card = N / NUM_COUNTERS + if c.val < N % NUM_COUNTERS then 1 else 0 := by
  have range : (users N c).map Fin.valEmbedding =
      (Finset.range N).filter (· ≡ c.val [MOD NUM_COUNTERS]) := by
    ext a
    simp only [users_eq, Finset.mem_map, Finset.mem_filter, Finset.mem_univ, true_and,
      Fin.valEmbedding_apply, Finset.mem_range, Nat.ModEq, Nat.mod_eq_of_lt c.isLt]
    constructor
    · rintro ⟨t, ht, rfl⟩
      exact ⟨t.isLt, ht⟩
    · rintro ⟨lt, ha⟩
      exact ⟨⟨a, lt⟩, ha, rfl⟩
  have count := Nat.count_modEq_card (b := N) (r := NUM_COUNTERS) (by decide) c.val
  rw [Nat.mod_eq_of_lt c.isLt, Nat.count_eq_card_filter_range, ← range, Finset.card_map] at count
  exact count

/-- What a counter holds in the end is the expected value and the surplus of its start. -/
lemma final_eq (c : Fin NUM_COUNTERS) :
    init c + BitVec.ofNat 32 ((users N c).card * iterations * work_length) =
      expected_value N iterations work_length +
        (init c + if c.val < N % NUM_COUNTERS then BitVec.ofNat 32 (iterations * work_length) else 0) := by
  rw [card_users, expected_value, Nat.add_mul, Nat.add_mul, BitVec.ofNat_add]
  split
  · rw [one_mul]
    exact add_left_comm _ _ _
  · rw [zero_mul, zero_mul, add_zero]
    exact (add_left_comm _ _ _).trans (congrArg _ (add_zero _))

end

/-- For every number of threads, every initial memory and every run in which the lock excludes and all
threads finish, all printed values are the expected ones if and only if the memory is balanced. -/
theorem self_check_iff (L : Lock) (N iterations work_length : ℕ) (init : Counters) (h : List (Fin N))
    (exclusive : ExclusiveRun L iterations work_length init h)
    (done : ∀ t, (Bench.after L iterations work_length init h).pc t = .done) :
    (∀ c, (Bench.after L iterations work_length init h).counters c =
      expected_value N iterations work_length) ↔ balanced_start N iterations work_length init := by
  refine forall_congr' fun c => ?_
  rw [(counted_exclusive exclusive).counters, increments_done done, final_eq, add_eq_left]
  split
  · exact add_eq_zero_iff_eq_neg
  · rw [add_zero]

/-- Zeroed memory is balanced if the threads are divided evenly among the counters, or nothing is counted. -/
theorem balanced_start_zero (N iterations work_length : ℕ) :
    balanced_start N iterations work_length (fun _ => 0) ↔
      N % NUM_COUNTERS = 0 ∨ BitVec.ofNat 32 (iterations * work_length) = 0 := by
  constructor
  · intro balanced
    by_contra odd
    obtain ⟨rest, some⟩ := not_or.mp odd
    have first := (balanced 0).symm
    exact some (neg_eq_zero.mp ((if_pos (Nat.pos_of_ne_zero rest)).symm.trans first))
  · rintro (even | zero) c
    · rw [even, if_neg (Nat.not_lt_zero _)]
    · rw [zero, neg_zero, ite_self]

/-- The first two counters start two below 0. -/
def two_below : Counters := fun c => if c.val < 2 then -2 else 0

/-- Two threads that contend for the compare-and-swap lock count up to 0. -/
theorem self_check_iff_two : balanced_start 2 2 1 two_below ∧
    ∀ c, (Bench.after caslock 2 1 two_below (List.replicate 20 [(0 : Fin 2), 1]).flatten).counters c =
      expected_value 2 2 1 := by
  have exclusive : ExclusiveRun caslock 2 1 two_below (List.replicate 20 [(0 : Fin 2), 1]).flatten :=
    fun g _ _ _ ht hu => excludes_after (two_state_excludes caslock_two_state) _ g ht hu
  have done : ∀ t, (Bench.after caslock 2 1 two_below
      (List.replicate 20 [(0 : Fin 2), 1]).flatten).pc t = .done := by
    intro t
    fin_cases t <;> rfl
  have balanced : balanced_start 2 2 1 two_below := by decide
  exact ⟨balanced, (self_check_iff caslock 2 2 1 _ _ exclusive done).mpr balanced⟩

/-- One thread on zeroed memory. -/
theorem not_self_check : ¬∀ (L : Lock) (N iterations work_length : ℕ) (init : Counters)
    (h : List (Fin N)), 1 ≤ N → (N / NUM_COUNTERS + 1) * iterations * work_length < 2 ^ 31 →
      ExclusiveRun L iterations work_length init h →
      (∀ t, (Bench.after L iterations work_length init h).pc t = .done) →
      ∀ c, (Bench.after L iterations work_length init h).counters c =
        expected_value N iterations work_length := by
  intro all
  have value := all ticket_lock 1 1 1 (fun _ => 0) (List.replicate 10 0) le_rfl (by decide)
    (fun _ _ t u _ _ => Subsingleton.elim t u)
    (fun t => by
      obtain rfl := Subsingleton.elim t 0
      rfl) 0
  exact absurd value (by decide)

end CS519.Locks
