import CS519.Fair
import CS519.Ipc.Aligned

/-!
# The pipe program ends

Every step of a process of `IPC-pipe.c` makes the work that is left one less (`Aligned.left_step`): a call
of a child, or a turn in the loops of the parent. So no run has more than `steps` steps, whatever the
schedule. And when no process can move, the parent has done all its rounds and every child has exited
(`Aligned.at_rest`). Together with what the parent has received by then, the program is correct in total
under every fair schedule (`pipe_completes`).
-/

namespace CS519.Ipc.Pipe
open CInt (INT_MAX)
open Function

/-- The steps that a child has yet to make. -/
def Child.left (m : ℕ) : Child → ℕ
  | unborn => (parent_reads m).length + 3
  | running calls => calls.length + 1
  | exited => 0

/-- The steps that the parent has yet to make. -/
def Parent.left (m : ℕ) : Parent → ℕ
  | fork i => m - i + 1 + (m * ((parent_reads m).length + 2) + 1)
  | round i => (m - i) * ((parent_reads m).length + 2) + 1
  | read i todo => (m - (i + 1)) * ((parent_reads m).length + 2) + 1 + (todo.length + 1)
  | done => 0

def Sys.left (m : ℕ) (s : Sys) : ℕ := s.parent.left m + ∑ i ∈ Finset.range m, (s.child i).left m

/-- The steps of the program: `m` forks and `m` rounds, and `m` children. -/
def steps (m : ℕ) : ℕ := m * (2 * (parent_reads m).length + 6) + 2

/-- The processes of the program. -/
def Move.own (m : ℕ) : Move → Prop
  | parent => True
  | child i => i < m

section Work
variable {cap m : ℕ} {A B : ℕ → int} {s s' : Sys} {l : List Event} {g : Ghost}

/-- What is left at the start is the number of steps. -/
lemma left_start (b : Buffers) (C : ℕ → int) : (pipe_start b C).left m = steps m := by
  simp only [pipe_start, Sys.left, Parent.left, Child.left, steps, Finset.sum_const, Finset.card_range,
    smul_eq_mul, Nat.sub_zero]
  ring

/-- A child takes the semaphore, writes its chunks and gives it back. -/
lemma length_child_calls (i : ℕ) : (child_calls m A B i).length = (parent_reads m).length + 2 := by
  rw [child_calls, List.length_append, List.length_cons, List.length_map, length_message,
    List.length_singleton]

/-- A child that moves on is one of the `m`. -/
lemma Aligned.child_lt (al : Aligned m A B s l g) {i : ℕ} {calls : List Call}
    (e : s.child i = .running calls) : i < m :=
  (al.calls e).1.trans_le al.born_le

/-- What one child does next. -/
lemma child_step?_eq_some {i : ℕ} (h : child_step? cap s i = some s') :
    ∃ calls child, s.child i = .running calls ∧ s'.child = update s.child i child ∧
      child.left m = calls.length ∧ s'.parent = s.parent := by
  rw [child_step?] at h
  split at h
  case h_1 e =>
    obtain rfl := Option.some.inj h
    exact ⟨_, _, e, rfl, rfl, rfl⟩
  case h_2 rest e =>
    obtain ⟨_, rfl⟩ := by simpa using h
    exact ⟨_, _, e, rfl, rfl, rfl⟩
  case h_3 data rest e =>
    obtain ⟨_, rfl⟩ := by simpa using h
    exact ⟨_, _, e, rfl, rfl, rfl⟩
  case h_4 rest e =>
    obtain rfl := Option.some.inj h
    exact ⟨_, _, e, rfl, rfl, rfl⟩
  case h_5 => exact absurd h (by simp)

/-- Every step of a child is one step less. -/
lemma Aligned.left_child (al : Aligned m A B s l g) {i : ℕ} (h : child_step? cap s i = some s') :
    s'.left m + 1 = s.left m := by
  obtain ⟨calls, child, e, changed, left, parent⟩ := child_step?_eq_some (m := m) h
  have sum := sum_update (fun _ => Child.left m) s.child (Finset.mem_range.mpr (al.child_lt e)) child
  rw [e, left, Child.left] at sum
  rw [Sys.left, Sys.left, parent, changed]
  omega

/-- Every step of the parent is one step less. -/
lemma Aligned.left_parent (al : Aligned m A B s l g) (h : parent_step? m A B s = some s') :
    s'.left m + 1 = s.left m := by
  rw [parent_step?] at h
  split at h
  case h_1 i e =>
    split at h
    case isTrue lt =>
      obtain rfl := Option.some.inj h
      have unborn : s.child i = .unborn := by
        have stage := al.children i
        rwa [e, Stage, Parent.born, if_pos le_rfl] at stage
      have sum := sum_update (fun _ => Child.left m) s.child (Finset.mem_range.mpr lt)
        (.running (child_calls m A B i))
      rw [unborn, Child.left, Child.left, length_child_calls] at sum
      simp only [Sys.left, e, Parent.left]
      omega
    case isFalse ge =>
      obtain rfl := Option.some.inj h
      simp only [Sys.left, e, Parent.left, Nat.sub_zero, Nat.sub_eq_zero_of_le (not_lt.mp ge)]
      omega
  case h_2 i e =>
    obtain rfl := Option.some.inj h
    split
    case isTrue lt =>
      obtain ⟨d, rfl⟩ := Nat.exists_eq_add_of_lt lt
      have rounds : i + d + 1 - i = d + 1 := by omega
      have later : i + d + 1 - (i + 1) = d := by omega
      simp only [Sys.left, e, Parent.left, rounds, later, Nat.succ_mul]
      omega
    case isFalse ge =>
      simp only [Sys.left, e, Parent.left, Nat.sub_eq_zero_of_le (not_lt.mp ge), Nat.zero_mul]
      omega
  case h_3 i e =>
    obtain rfl := Option.some.inj h
    simp only [Sys.left, e, Parent.left, List.length_nil]
    omega
  case h_4 i r todo e =>
    split at h
    case isTrue => exact absurd h (by simp)
    case isFalse =>
      obtain rfl := Option.some.inj h
      simp only [Sys.left, e, Parent.left, List.length_cons]
      omega
  case h_5 => exact absurd h (by simp)

/-- Every move is one step less. -/
lemma Aligned.left_step (al : Aligned m A B s l g) {mv : Move} (h : pipe_step? cap m A B s mv = some s') :
    s'.left m + 1 = s.left m := by
  cases mv with
  | parent => exact al.left_parent h
  | child i => exact al.left_child h

/-- A process can move exactly if it changes the state. -/
lemma Aligned.moves_iff (al : Aligned m A B s l g) (mv : Move) :
    (pipe_step? cap m A B s mv).isSome ↔ pipe_step cap m A B s mv ≠ s := by
  rw [pipe_step]
  cases e : pipe_step? cap m A B s mv with
  | none => simp
  | some s' =>
    have less := al.left_step e
    simp only [Option.isSome_some, Option.getD_some, true_iff]
    rintro rfl
    omega

/-- The program works off its steps. -/
lemma works_off (cap : ℕ) (A B : ℕ → int) (int_m : m ≤ INT_MAX) (pos : 0 < m) :
    WorksOff (pipe_step cap m A B) (fun s => ∃ l g, Aligned m A B s l g) (Sys.left m) where
  preserved := by
    rintro s mv ⟨l, g, al⟩
    cases mv with
    | parent => exact ⟨_, al.parent_step int_m pos⟩
    | child i => exact ⟨l, al.child i⟩
  lowers := by
    rintro s mv ⟨l, g, al⟩
    rw [pipe_step]
    cases e : pipe_step? cap m A B s mv with
    | none => exact .inl rfl
    | some s' => exact .inr (Nat.lt_of_succ_le (al.left_step e).le)

end Work

/-! ## At rest -/

section Rest
variable {cap m : ℕ} {A B : ℕ → int} {s : Sys} {l : List Event} {g : Ghost}

/-- While the parent is not done, a process can move. -/
lemma Aligned.not_stuck (int_m : m ≤ INT_MAX) (pos : 0 < m) (room : PIPE_BUF ≤ cap)
    (al : Aligned m A B s l g) (waiting : s.parent ≠ .done) :
    ∃ mv, mv.own m ∧ (pipe_step? cap m A B s mv).isSome := by
  by_cases parent : (parent_step? m A B s).isSome
  · exact ⟨.parent, trivial, parent⟩
  · -- the parent is blocked in a read
    cases e : s.parent with
    | fork i =>
      simp only [parent_step?, e] at parent
      split at parent <;> simp at parent
    | round i => simp [parent_step?, e] at parent
    | done => exact absurd e waiting
    | read i todo =>
      cases todo with
      | nil => simp [parent_step?, e] at parent
      | cons r todo =>
        have empty : s.pipe = [] := by
          by_contra available
          simp [parent_step?, e, available] at parent
        obtain ⟨c, step⟩ := al.child_can_step int_m pos room e empty
        obtain ⟨s', some⟩ := Option.isSome_iff_exists.mp step
        obtain ⟨_, _, running, _⟩ := child_step?_eq_some (m := m) some
        exact ⟨.child c, al.child_lt running, step⟩

/-- At the end of the rounds all children have had the semaphore, and nothing is on its way. -/
lemma Aligned.all_received (al : Aligned m A B s l g) (done : s.parent = .done) :
    g.order.Perm (List.range m) ∧ g.pending = [] ∧ s.pipe = [] := by
  have rounds := al.rounds
  have stream := al.stream
  have some := al.subperm al.born_le
  rw [done, Parent.rounds] at rounds stream
  have all : g.order.Perm (List.range m) := some.perm_of_length_le (by simpa using rounds)
  have len : g.order.length = m := by simpa using all.length_eq
  rw [List.drop_eq_nil_of_le len.le, List.flatMap_nil, List.append_eq_nil_iff,
    List.append_eq_nil_iff] at stream
  exact ⟨all, stream.2, by rw [al.pipe, stream.1.2, List.flatten_nil]⟩

/-- When all rounds are done, `C` is the product. -/
lemma Aligned.product (fits : product_fits m A B) (al : Aligned m A B s l g)
    (done : s.parent = .done) :
    matrix m s.C = matrix m A * matrix m B ∧ verify m A B s.C = 1 := by
  obtain ⟨all, _, _⟩ := al.all_received done
  have copied := al.copied
  have len : g.order.length = m := by simpa using all.length_eq
  rw [done, Parent.rounds, List.take_of_length_le len.le] at copied
  have computed := rows_computed_of_getD fun i hi j hj =>
    copied i (all.mem_iff.mpr (List.mem_range.mpr hi)) j hj
  exact ⟨product_of_rows fits computed, verify_iff.mpr computed⟩

/-- When no process can move, the parent has done all its rounds, every child has exited, the semaphore is
free and the pipe is empty. -/
lemma Aligned.at_rest (int_m : m ≤ INT_MAX) (pos : 0 < m) (room : PIPE_BUF ≤ cap)
    (al : Aligned m A B s l g) (rest : Settled (pipe_step cap m A B) (Move.own m) s) :
    s.parent = .done ∧ (∀ i < m, s.child i = .exited) ∧ s.semaphore = 1 ∧ s.pipe = [] := by
  have stuck : ∀ mv, mv.own m → ¬(pipe_step? cap m A B s mv).isSome :=
    fun mv own some => (al.moves_iff mv).mp some (rest mv own)
  have done : s.parent = .done := by
    by_contra waiting
    obtain ⟨mv, own, some⟩ := al.not_stuck int_m pos room waiting
    exact stuck mv own some
  obtain ⟨all, pending, pipe⟩ := al.all_received done
  have mem : ∀ i < m, i ∈ g.order := fun i hi => all.mem_iff.mpr (List.mem_range.mpr hi)
  have stage : ∀ i, Stage m A B m g i (s.child i) := by
    have stages := al.children
    rw [done] at stages
    exact stages
  have free : g.holder = none := by
    by_contra held
    obtain ⟨c, held⟩ := Option.ne_none_iff_exists'.mp held
    have permit := al.permit
    rw [Permit, held] at permit
    have lt : c < m := List.mem_range.mp (all.mem_iff.mp permit.2)
    -- the holder has nothing to do but to give the semaphore back
    have running := stage c
    rw [Stage, if_neg (not_le.mpr lt), if_pos held, pending] at running
    exact stuck (.child c) lt (by simp [pipe_step?, child_step?, running])
  have permit := al.permit
  rw [Permit, free] at permit
  refine ⟨done, fun i hi => ?_, permit.1, pipe⟩
  have last := stage i
  rw [Stage, if_neg (not_le.mpr hi), free, if_neg (by simp), if_pos (mem i hi)] at last
  refine last.resolve_left fun running => ?_
  exact stuck (.child i) hi (by simp [pipe_step?, child_step?, running])

/-- The program ends with the product: no run has more than `steps` steps, and under every schedule that
lets the parent and all children move again and again, all processes come to their ends and leave the
product, a free semaphore and an empty pipe. -/
theorem pipe_completes (pos : 1 ≤ m) (int_m : m * m ≤ INT_MAX) (fits : product_fits m A B)
    (room : PIPE_BUF ≤ cap) {b : Buffers} (sized : b.Sized m) (C : ℕ → int) :
    (∀ h : List Move, Always (pipe_step cap m A B)
      (fun s mv => (pipe_step? cap m A B s mv).isSome) (pipe_start b C) h → h.length ≤ steps m) ∧
    ∀ w, Fair (Move.own m) w → ∃ n, ∀ k, n ≤ k →
      let s := run (pipe_step cap m A B) (pipe_start b C) (firsts w k)
      s.parent = .done ∧ (∀ i < m, s.child i = .exited) ∧ s.semaphore = 1 ∧ s.pipe = [] ∧
        matrix m s.C = matrix m A * matrix m B ∧ verify m A B s.C = 1 := by
  have int_m' : m ≤ INT_MAX := (Nat.le_mul_self m).trans int_m
  have off := works_off cap A B int_m' pos
  have start : ∃ l g, Aligned m A B (pipe_start b C) l g := ⟨_, _, aligned_start sized C⟩
  constructor
  · intro h moves
    have iff : ∀ (s : Sys) mv, (∃ l g, Aligned m A B s l g) →
        ((pipe_step? cap m A B s mv).isSome ↔ pipe_step cap m A B s mv ≠ s) :=
      fun _ mv ⟨_, _, al⟩ => al.moves_iff mv
    have le := off.length_le start ((always_congr off.preserved iff start h).mp moves)
    rw [left_start] at le
    omega
  · intro w fair
    obtain ⟨n, rest, same⟩ := off.settles start fair
    refine ⟨n, fun k le => ?_⟩
    obtain ⟨l, g, al⟩ := run_invariant off.preserved start (firsts w n)
    obtain ⟨done, exited, free, empty⟩ := al.at_rest int_m' pos room rest
    rw [same k le]
    exact ⟨done, exited, free, empty, al.product fits done⟩

/-- The parent and two children that take turns. -/
theorem pipe_completes_two : ∃ n, ∀ k, n ≤ k →
    verify 2 one_to_four one_to_four
      (run (pipe_step 4096 2 one_to_four one_to_four) (pipe_start ⟨[0, 0, 0, 0], .replicate 8 0⟩ 0)
        (firsts (round_robin .parent [.child 0, .child 1]) k)).C = 1 := by
  have fair : Fair (Move.own 2) (round_robin .parent [.child 0, .child 1]) := by
    intro mv own
    refine fair_round_robin _ _ mv ?_
    cases mv with
    | parent => simp
    | child i =>
      have lt : i < 2 := own
      interval_cases i <;> simp
  have sized : Buffers.Sized 2 ⟨[0, 0, 0, 0], .replicate 8 0⟩ := ⟨rfl, rfl⟩
  obtain ⟨n, ends⟩ := (pipe_completes (by decide) (by decide) one_to_four_fits le_rfl sized 0).2 _ fair
  exact ⟨n, fun k le => (ends k le).2.2.2.2.2⟩

end Rest

end CS519.Ipc.Pipe
