import CS519.Fair
import CS519.Ipc.Shared

/-!
# The shared-memory programs end

What a child calls is bracketed: it takes the semaphore, stores, and gives the semaphore back (`Bracketed`;
a child of `IPC-mesg.c` only stores). So the permits that are missing are those of the children that hold
the semaphore (`Kept`), and one that holds it is never blocked. Every step makes the work that is left one
less, and when no process can move, the parent has reaped all children (`Kept.at_rest`).

`shared_complete` puts this together with what the memory holds by then.
-/

namespace CS519.Ipc
open Function

section Bracketed
variable {Loc : Type}

/-- The calls take the semaphore and give it back in turns, and end without it. The first argument says
whether the semaphore is held before them. -/
def Bracketed : Bool → List (Call Loc) → Prop
  | held, [] => held = false
  | held, .store _ _ :: rest => Bracketed held rest
  | held, .semaphore_reserve :: rest => held = false ∧ Bracketed true rest
  | held, .semaphore_release :: rest => held = true ∧ Bracketed false rest

/-- Whether calls that are bracketed are made with the semaphore. -/
def held : List (Call Loc) → Bool
  | [] => false
  | .store _ _ :: rest => held rest
  | .semaphore_reserve :: _ => false
  | .semaphore_release :: _ => true

/-- Whether the semaphore is held can be read off the calls that are left. -/
lemma Bracketed.held_eq {b : Bool} {calls : List (Call Loc)} (br : Bracketed b calls) :
    held calls = b := by
  induction calls with
  | nil => exact br.symm
  | cons call rest ih =>
    cases call with
    | store a v => exact ih br
    | semaphore_reserve => exact br.1.symm
    | semaphore_release => exact br.1.symm

/-- Stores in front change nothing. -/
lemma bracketed_stores {b : Bool} {body rest : List (Call Loc)} (stores : ∀ c ∈ body, ∃ a v, c = .store a v) :
    Bracketed b (body ++ rest) ↔ Bracketed b rest := by
  induction body with
  | nil => rfl
  | cons call body ih =>
    obtain ⟨⟨a, v, rfl⟩, others⟩ := List.forall_mem_cons.mp stores
    exact ih others

end Bracketed

section Work
variable {Loc : Type} (m : ℕ) (calls : ℕ → List (Call Loc))

/-- The steps that a child has yet to make, and the one of the parent that reaps it. -/
def Child.left (calls : List (Call Loc)) : Child Loc → ℕ
  | unborn => calls.length + 2
  | running rest => rest.length + 2
  | exited => 1
  | reaped => 0

/-- The steps that the parent has yet to make in its own loops. -/
def Parent.left : Parent → ℕ
  | fork i => m - i + 2
  | wait => 1
  | done => 0

def Sys.left (s : Sys Loc) : ℕ :=
  s.parent.left m + ∑ i ∈ Finset.range m, (s.child i).left (calls i)

/-- The processes of the program. -/
def Move.own : Move → Prop
  | parent => True
  | reap i => i < m
  | child i => i < m

/-- The number of children that the parent has forked. -/
def Parent.born : Parent → ℕ
  | fork i => i
  | _ => m

/-- The permits that a child holds. -/
def Child.permits : Child Loc → ℕ
  | running rest => (held rest).toNat
  | _ => 0

/-- A child that is not born holds no permit. -/
@[simp] lemma permits_unborn : (.unborn : Child Loc).permits = 0 := rfl

/-- A child that runs holds the permit that its next call of the semaphore gives back. -/
@[simp] lemma permits_running (rest : List (Call Loc)) : (Child.running rest).permits = (held rest).toNat := rfl

/-- A child that is not born has all its steps before it. -/
@[simp] lemma left_unborn (calls : List (Call Loc)) :
    (.unborn : Child Loc).left calls = calls.length + 2 := rfl

/-- A child that runs has its calls before it, its exit and its end. -/
@[simp] lemma left_running (calls rest : List (Call Loc)) :
    (Child.running rest).left calls = rest.length + 2 := rfl

/-- The children that were forked are the first ones, each has bracketed calls before it, and what is
missing of the semaphore's permit is held by one of them. -/
structure Kept (s : Sys Loc) : Prop where
  born : s.parent.born m ≤ m
  unborn : ∀ i, s.child i = .unborn ↔ s.parent.born m ≤ i
  bracketed : ∀ i rest, s.child i = .running rest → ∃ b, Bracketed b rest
  permit : s.semaphore + ∑ i ∈ Finset.range m, (s.child i).permits = 1

end Work

section Steps
variable {Loc : Type} [DecidableEq Loc] {m : ℕ} {calls : ℕ → List (Call Loc)} {s : Sys Loc}

omit [DecidableEq Loc] in
/-- At the start no child is born, and the permit is there. -/
lemma Kept.start (mem : Loc → int) : Kept m (sys_start mem) where
  born := Nat.zero_le m
  unborn i := iff_of_true rfl (Nat.zero_le i)
  bracketed i rest e := by simp [sys_start] at e
  permit := by simp [sys_start, Child.permits]

omit [DecidableEq Loc] in
/-- The children are numbered below `m`. -/
lemma Kept.lt (kept : Kept m s) {i : ℕ} (alive : s.child i ≠ .unborn) : i < m :=
  (not_le.mp ((kept.unborn i).not.mp alive)).trans_le kept.born

omit [DecidableEq Loc] in
/-- A child that was forked moves on. -/
lemma Kept.move (kept : Kept m s) {i : ℕ} (alive : s.child i ≠ .unborn) {s' : Sys Loc} {c : Child Loc}
    (parent : s'.parent = s.parent) (child : s'.child = update s.child i c) (next : c ≠ .unborn)
    (bracketed : ∀ rest, c = .running rest → ∃ b, Bracketed b rest)
    (permits : s'.semaphore + c.permits = s.semaphore + (s.child i).permits) : Kept m s' where
  born := parent ▸ kept.born
  unborn j := by
    rw [child, parent]
    by_cases e : j = i
    · subst e
      rw [update_self]
      exact iff_of_false next ((kept.unborn j).not.mp alive)
    · rw [update_of_ne e]
      exact kept.unborn j
  bracketed j rest run := by
    rw [child] at run
    by_cases e : j = i
    · subst e
      rw [update_self] at run
      exact bracketed rest run
    · rw [update_of_ne e] at run
      exact kept.bracketed j rest run
  permit := by
    have sum := sum_update (fun _ => Child.permits) s.child (Finset.mem_range.mpr (kept.lt alive)) c
    have permit := kept.permit
    rw [child]
    omega

omit [DecidableEq Loc] in
/-- A child that has fewer steps to make has done some of the work. -/
lemma left_move {i : ℕ} (lt : i < m) {s' : Sys Loc} {c : Child Loc} (parent : s'.parent = s.parent)
    (child : s'.child = update s.child i c) (less : c.left (calls i) < (s.child i).left (calls i)) :
    s'.left m calls < s.left m calls := by
  have sum := sum_update (fun j => Child.left (calls j)) s.child (Finset.mem_range.mpr lt) c
  rw [Sys.left, Sys.left, parent, child]
  omega

omit [DecidableEq Loc] in
/-- A step of a child, or of the parent that reaps it. -/
lemma Kept.advance (kept : Kept m s) {i : ℕ} (alive : s.child i ≠ .unborn) {s' : Sys Loc} {c : Child Loc}
    (parent : s'.parent = s.parent) (child : s'.child = update s.child i c)
    (less : c.left (calls i) < (s.child i).left (calls i)) (next : c ≠ .unborn)
    (bracketed : ∀ rest, c = .running rest → ∃ b, Bracketed b rest)
    (permits : s'.semaphore + c.permits = s.semaphore + (s.child i).permits) :
    Kept m s' ∧ (s' = s ∨ s'.left m calls < s.left m calls) :=
  ⟨kept.move alive parent child next bracketed permits,
    .inr (left_move (kept.lt alive) parent child less)⟩

/-- A step of a child that is not blocked makes the work less. -/
lemma Kept.of_child (kept : Kept m s) (i : ℕ) :
    Kept m (child_step s i) ∧
      (child_step s i = s ∨ (child_step s i).left m calls < s.left m calls) := by
  rw [child_step]
  cases e : s.child i with
  | unborn => exact ⟨kept, .inl rfl⟩
  | exited => exact ⟨kept, .inl rfl⟩
  | reaped => exact ⟨kept, .inl rfl⟩
  | running todo =>
    have alive : s.child i ≠ .unborn := by simp [e]
    obtain ⟨b, br⟩ := kept.bracketed i todo e
    cases todo with
    | nil =>
      refine kept.advance alive rfl rfl ?_ (by simp) (by simp) ?_
      · simp [e, Child.left]
      · simp [e, Child.permits, held]
    | cons call rest =>
      have less : rest.length + 2 < (call :: rest).length + 2 := by simp
      cases call with
      | semaphore_reserve =>
        by_cases taken : s.semaphore = 0
        · simp only [if_pos taken]
          exact ⟨kept, .inl trivial⟩
        · simp only [if_neg taken]
          refine kept.advance alive rfl rfl (by rwa [e]) (by simp) ?_ ?_
          · rintro _ ⟨⟩
            exact ⟨true, br.2⟩
          · simp only [e, Child.permits, br.2.held_eq, held, Bool.toNat_true, Bool.toNat_false]
            omega
      | semaphore_release =>
        refine kept.advance alive rfl rfl (by rwa [e]) (by simp) ?_ ?_
        · rintro _ ⟨⟩
          exact ⟨false, br.2⟩
        · simp only [e, Child.permits, br.2.held_eq, held, Bool.toNat_true, Bool.toNat_false]
      | store a v =>
        refine kept.advance alive rfl rfl (by rwa [e]) (by simp) ?_ ?_
        · rintro _ ⟨⟩
          exact ⟨b, br⟩
        · simp only [e, Child.permits, held]

omit [DecidableEq Loc] in
/-- To reap a child makes the work less. -/
lemma Kept.of_reap (kept : Kept m s) (i : ℕ) :
    Kept m (reap_step s i) ∧ (reap_step s i = s ∨ (reap_step s i).left m calls < s.left m calls) := by
  rw [reap_step]
  split
  case h_1 parent e =>
    refine kept.advance (by simp [e]) rfl rfl ?_ (by simp) (by simp) ?_
    · simp [e, Child.left]
    · simp [e, Child.permits]
  case h_2 => exact ⟨kept, .inl rfl⟩

omit [DecidableEq Loc] in
/-- A step of the parent in its own loops makes the work less. -/
lemma Kept.of_parent (brackets : ∀ i, Bracketed false (calls i)) (kept : Kept m s) :
    Kept m (parent_step m calls s) ∧
      (parent_step m calls s = s ∨ (parent_step m calls s).left m calls < s.left m calls) := by
  rw [parent_step]
  cases e : s.parent with
  | fork i =>
    have born : s.parent.born m = i := by rw [e]; rfl
    simp only
    by_cases lt : i < m
    · rw [if_pos lt]
      have unborn : s.child i = .unborn := (kept.unborn i).mpr born.le
      have sum := sum_update (fun j => Child.left (calls j)) s.child (Finset.mem_range.mpr lt)
        (.running (calls i))
      have permits := sum_update (fun _ => Child.permits) s.child (Finset.mem_range.mpr lt)
        (.running (calls i))
      have permit := kept.permit
      simp only [unborn, permits_unborn, permits_running, (brackets i).held_eq, Bool.toNat_false] at permits
      simp only [unborn, left_unborn, left_running] at sum
      refine ⟨⟨lt, fun j => ?_, fun j rest run => ?_, ?_⟩, .inr ?_⟩
      · by_cases same : j = i
        · subst same
          simp [Parent.born]
        · have unborn := kept.unborn j
          rw [born] at unborn
          simp only [update_of_ne same, unborn, Parent.born]
          omega
      · by_cases same : j = i
        · subst same
          obtain rfl : calls j = rest := by simpa using run
          exact ⟨false, brackets j⟩
        · exact kept.bracketed j rest (by simpa [same] using run)
      · simp only
        omega
      · simp only [Sys.left, e, Parent.left]
        omega
    · rw [if_neg lt]
      have last : i = m := le_antisymm (born ▸ kept.born) (not_lt.mp lt)
      refine ⟨⟨le_rfl, ?_, kept.bracketed, kept.permit⟩, .inr ?_⟩
      · rw [last] at born
        exact born ▸ kept.unborn
      · simp [Sys.left, e, Parent.left, last]
  | wait =>
    have born : s.parent.born m = m := by rw [e]; rfl
    simp only
    split
    · refine ⟨⟨le_rfl, born ▸ kept.unborn, kept.bracketed, kept.permit⟩, .inr ?_⟩
      simp [Sys.left, e, Parent.left]
    · exact ⟨kept, .inl rfl⟩
  | done => exact ⟨kept, .inl rfl⟩

/-- Every step keeps the invariant, and makes the work less if it changes anything. -/
lemma Kept.step (brackets : ∀ i, Bracketed false (calls i)) (kept : Kept m s) (mv : Move) :
    Kept m (sys_step m calls s mv) ∧
      (sys_step m calls s mv = s ∨ (sys_step m calls s mv).left m calls < s.left m calls) := by
  cases mv with
  | parent => exact kept.of_parent brackets
  | reap i => exact kept.of_reap i
  | child i => exact kept.of_child i

/-- The program works off its steps. -/
lemma works_off (brackets : ∀ i, Bracketed false (calls i)) :
    WorksOff (sys_step m calls) (Kept m) (Sys.left m calls) :=
  ⟨fun _ mv kept => (kept.step brackets mv).1, fun _ mv kept => (kept.step brackets mv).2⟩

end Steps

/-! ## At rest -/

section Rest
variable {Loc : Type} [DecidableEq Loc] {m : ℕ} {calls : ℕ → List (Call Loc)} {s : Sys Loc}

/-- A child that runs in a system at rest waits for the semaphore. -/
lemma Kept.waits_at_rest (kept : Kept m s) (rest : Settled (sys_step m calls) (Move.own m) s) {i : ℕ}
    {todo : List (Call Loc)} (e : s.child i = .running todo) :
    s.semaphore = 0 ∧ held todo = false := by
  have still : child_step s i = s := rest (.child i) (kept.lt (by simp [e]))
  have child := congrFun (congrArg Sys.child still) i
  cases todo with
  | nil => simp [child_step, e] at child
  | cons call todo =>
    cases call with
    | semaphore_reserve =>
      refine ⟨?_, rfl⟩
      by_contra free
      simp [child_step, e, free] at child
    | semaphore_release => simp [child_step, e] at child
    | store a v => simp [child_step, e] at child

/-- The semaphore of a system at rest is free, because a child that holds it can move. -/
lemma Kept.free_at_rest (kept : Kept m s) (rest : Settled (sys_step m calls) (Move.own m) s) :
    s.semaphore = 1 := by
  have none : ∑ i ∈ Finset.range m, (s.child i).permits = 0 := by
    refine Finset.sum_eq_zero fun i _ => ?_
    cases e : s.child i with
    | running todo => rw [permits_running, (kept.waits_at_rest rest e).2, Bool.toNat_false]
    | _ => rfl
  have permit := kept.permit
  omega

/-- When no process can move, the parent has reaped all children. -/
lemma Kept.at_rest (kept : Kept m s) (rest : Settled (sys_step m calls) (Move.own m) s) :
    s.parent = .done := by
  have stopped : ∀ i todo, s.child i ≠ .running todo := by
    intro i todo e
    have taken := (kept.waits_at_rest rest e).1
    have free := kept.free_at_rest rest
    omega
  have still : parent_step m calls s = s := rest .parent trivial
  have same := congrArg Sys.parent still
  cases e : s.parent with
  | done => rfl
  | fork i =>
    rw [parent_step, e] at same
    simp only at same
    split at same <;> simp at same
  | wait =>
    have born : s.parent.born m = m := by rw [e]; rfl
    have reaped : ∀ i < m, s.child i = .reaped := by
      intro i lt
      have still : reap_step s i = s := rest (.reap i) lt
      cases c : s.child i with
      | unborn =>
        have ge := (kept.unborn i).mp c
        omega
      | running todo => exact absurd c (stopped i todo)
      | exited =>
        have kid := congrFun (congrArg Sys.child still) i
        simp [reap_step, e, c] at kid
      | reaped => rfl
    simp [parent_step, e, all_reaped_iff.mpr reaped] at same

/-- Every run of a program with bracketed calls ends, and under a fair schedule it ends with all children
reaped. -/
lemma completes (brackets : ∀ i, Bracketed false (calls i)) (mem : Loc → int) :
    (∀ h : List Move, Always (sys_step m calls) (fun s mv => sys_step m calls s mv ≠ s) (sys_start mem) h →
      h.length ≤ (sys_start mem).left m calls) ∧
    ∀ w, Fair (Move.own m) w → ∃ n, ∀ k, n ≤ k →
      let s := run (sys_step m calls) (sys_start mem) (firsts w k)
      s.parent = .done ∧ (∀ i < m, s.child i = .reaped) ∧ s.semaphore = 1 := by
  have off := works_off (m := m) brackets
  constructor
  · intro h moves
    have le := off.length_le (Kept.start mem) moves
    omega
  · intro w fair
    obtain ⟨n, rest, same⟩ := off.settles (Kept.start mem) fair
    refine ⟨n, fun k le => ?_⟩
    rw [same k le]
    have kept := run_invariant off.preserved (Kept.start mem) (firsts w n)
    have done := kept.at_rest rest
    exact ⟨done, fun i hi => reaped_of_done done hi, kept.free_at_rest rest⟩

end Rest

/-! ## The two programs -/

section Products
variable {m : ℕ} {copy : ℕ → Copy m} {A B : ℕ → int}

/-- A copy in front changes nothing. -/
lemma bracketed_memcpy {Loc : Type} (d : ℕ → Loc) (row : ℕ) {b : Bool} {rest : List (Call Loc)} :
    Bracketed b (memcpy_calls m copy A B d row ++ rest) ↔ Bracketed b rest := by
  refine bracketed_stores fun c mem => ?_
  obtain ⟨j, _, rfl⟩ := List.mem_map.mp mem
  exact ⟨_, _, rfl⟩

/-- A child of `IPC-shmem.c` gives back the semaphore that it takes. -/
lemma bracketed_shmem (i : ℕ) : Bracketed false (shmem_calls m copy A B i) :=
  ⟨rfl, (bracketed_memcpy _ i).mpr ⟨rfl, rfl⟩⟩

/-- A child of `IPC-mesg.c` takes no semaphore. -/
lemma bracketed_mesg (i : ℕ) : Bracketed false (mesg_calls m copy A B i) := by
  rw [mesg_calls, ← List.append_nil (memcpy_calls ..)]
  exact (bracketed_memcpy _ i).mpr rfl

/-- A row is copied by one store for each element. -/
lemma length_memcpy {Loc : Type} (d : ℕ → Loc) (row : ℕ) :
    (memcpy_calls m copy A B d row).length = m := by
  rw [memcpy_calls, List.length_map, (copy row).2.length_eq, List.length_range]

/-- The steps of a program whose children make `n` calls each. -/
lemma left_start {Loc : Type} {calls : ℕ → List (Call Loc)} {n : ℕ} (length : ∀ i, (calls i).length = n)
    (mem : Loc → int) : (sys_start mem).left m calls = m * (n + 3) + 2 := by
  simp only [sys_start, Sys.left, Parent.left, left_unborn, length, Finset.sum_const, Finset.card_range,
    smul_eq_mul]
  ring_nf
  omega

/-- Both programs end with the product: no run has more than `m * (m + 5) + 2` steps, or `m * (m + 3) + 2`
without a semaphore, and under every schedule that lets all processes move again and again the parent reaps
all children and comes to its end, with the product in the shared memory. -/
theorem shared_complete (copy : ℕ → Copy m) (fits : product_fits m A B) :
    (∀ C : ℕ → int,
      let step := sys_step m (shmem_calls m copy A B)
      (∀ h : List Move, Always step (fun s mv => step s mv ≠ s) (sys_start C) h →
        h.length ≤ m * (m + 5) + 2) ∧
      ∀ w, Fair (Move.own m) w → ∃ n, ∀ k, n ≤ k →
        let s := run step (sys_start C) (firsts w k)
        s.parent = .done ∧ (∀ i < m, s.child i = .reaped) ∧ s.semaphore = 1 ∧
          matrix m s.mem = matrix m A * matrix m B ∧ verify m A B s.mem = 1) ∧
    ∀ (C : ℕ × ℕ → int) (D : ℕ → int),
      let step := sys_step m (mesg_calls m copy A B)
      (∀ h : List Move, Always step (fun s mv => step s mv ≠ s) (sys_start C) h →
        h.length ≤ m * (m + 3) + 2) ∧
      ∀ w, Fair (Move.own m) w → ∃ n, ∀ k, n ≤ k →
        let s := run step (sys_start C) (firsts w k)
        s.parent = .done ∧ (∀ i < m, s.child i = .reaped) ∧
          matrix m (reassemble m D s.mem) = matrix m A * matrix m B ∧
          verify m A B (reassemble m D s.mem) = 1 := by
  constructor
  · intro C step
    have length : ∀ i, (shmem_calls m copy A B i).length = m + 2 := by
      intro i
      rw [shmem_calls, List.length_append, List.length_cons, length_memcpy, List.length_singleton]
    obtain ⟨bound, ends⟩ := completes (m := m) (fun i => bracketed_shmem (m := m) i) C
    refine ⟨fun h moves => ?_, fun w fair => ?_⟩
    · rw [← left_start length C]
      exact bound h moves
    · obtain ⟨n, done⟩ := ends w fair
      refine ⟨n, fun k le => ?_⟩
      have rows := rows_computed_of_getD fun i hi j hj =>
        (rows_written (placed_slices m) (stores_shmem copy A B) C _ (done k le).1 hi hj).1
      obtain ⟨stop, reaped, free⟩ := done k le
      exact ⟨stop, reaped, free, product_of_rows fits rows, verify_iff.mpr rows⟩
  · intro C D step
    have length : ∀ i, (mesg_calls m copy A B i).length = m := fun i => length_memcpy _ i
    have prog : ∀ i, stores (mesg_calls m copy A B i) =
        stores (memcpy_calls m copy A B (fun j => (i, j)) i) := fun _ => rfl
    obtain ⟨bound, ends⟩ := completes (m := m) (fun i => bracketed_mesg (m := m) i) C
    refine ⟨fun h moves => ?_, fun w fair => ?_⟩
    · rw [← left_start length C]
      exact bound h moves
    · obtain ⟨n, done⟩ := ends w fair
      refine ⟨n, fun k le => ?_⟩
      have rows := rows_computed_of_getD fun i hi j hj =>
        (reassemble_apply D _ hi hj).trans
          (rows_written (placed_segments m) prog C _ (done k le).1 hi hj).1
      exact ⟨(done k le).1, (done k le).2.1, product_of_rows fits rows, verify_iff.mpr rows⟩

/-- The parent and two children that take turns. -/
theorem shared_complete_two : ∃ n, ∀ k, n ≤ k →
    verify 2 one_to_four one_to_four
      (run (sys_step 2 (shmem_calls 2 (fun _ => ⟨[1, 0], by decide⟩) one_to_four one_to_four))
        (sys_start 0) (firsts (round_robin .parent [.reap 0, .reap 1, .child 0, .child 1]) k)).mem = 1 := by
  have fair : Fair (Move.own 2) (round_robin .parent [.reap 0, .reap 1, .child 0, .child 1]) := by
    intro mv own
    refine fair_round_robin _ _ mv ?_
    cases mv with
    | parent => simp
    | reap i =>
      have lt : i < 2 := own
      interval_cases i <;> simp
    | child i =>
      have lt : i < 2 := own
      interval_cases i <;> simp
  obtain ⟨n, ends⟩ := ((shared_complete (fun _ => ⟨[1, 0], by decide⟩) one_to_four_fits).1 0).2 _ fair
  exact ⟨n, fun k le => (ends k le).2.2.2.2⟩

end Products

end CS519.Ipc
