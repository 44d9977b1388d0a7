import Mathlib.Order.Interval.Set.Basic
import Mathlib.Data.Set.Lattice
import CS519.Barrier
import CS519.Matmul.Plain
import Mathlib.Order.CompletePartialOrder

/-!
# The threads of `matrix.c`

`main` gives every thread a range of rows, the last thread the remainder, too. Each thread transposes the
entries of its rows, waits at the barrier, and multiplies its rows.

Before the barrier a thread owns its columns of `B_T`, after it its rows of `C`. So the threads are separate
in both phases, and whatever the schedule, they leave what one thread would have left.

Indices are numbers: an `int` of the source holds all of them if it holds `N * N`.
-/

namespace CS519.Matmul
open Function

section Partition
variable (N num_threads : ℕ)

def rows_per : ℕ := N / num_threads

def row_start (i : ℕ) : ℕ := i * rows_per N num_threads

def row_end (i : ℕ) : ℕ :=
  if i = num_threads - 1 then N else row_start N num_threads i + rows_per N num_threads

/-- The rows of a thread. -/
def rows (t : Fin num_threads) : Set ℕ := Set.Ico (row_start N num_threads t) (row_end N num_threads t)

end Partition

section Rows
variable {N num_threads : ℕ}

/-- The rows of a thread. -/
lemma mem_rows {t : Fin num_threads} {i : ℕ} :
    i ∈ rows N num_threads t ↔ row_start N num_threads t ≤ i ∧ i < row_end N num_threads t :=
  Iff.rfl

/-- The ranges lie one after the other. -/
lemma row_end_le_row_start {t u : ℕ} (lt : t < u) (hu : u < num_threads) :
    row_end N num_threads t ≤ row_start N num_threads u := by
  have inner : t ≠ num_threads - 1 := by omega
  rw [row_end, if_neg inner, row_start, row_start, ← Nat.succ_mul]
  exact Nat.mul_le_mul_right _ lt

/-- No thread has rows beyond the last one. -/
lemma row_end_le {t : ℕ} (ht : t < num_threads) : row_end N num_threads t ≤ N := by
  unfold row_end
  split
  · exact le_rfl
  · rw [row_start, ← Nat.succ_mul]
    calc
      (t + 1) * rows_per N num_threads ≤ num_threads * (N / num_threads) := Nat.mul_le_mul_right _ ht
      _ ≤ N := Nat.mul_div_le N num_threads

/-- The rows of a thread are rows of the matrix. -/
lemma rows_lt {t : Fin num_threads} {i : ℕ} (h : i ∈ rows N num_threads t) : i < N :=
  h.2.trans_le (row_end_le t.isLt)

/-- No row belongs to two threads. -/
lemma rows_apart {t u : Fin num_threads} {i : ℕ} (h : i ∈ rows N num_threads t)
    (h' : i ∈ rows N num_threads u) : t = u := by
  by_contra ne
  cases lt_or_gt_of_ne (fun e => ne (Fin.ext e) : (t : ℕ) ≠ u) with
  | inl lt => exact absurd (h.2.trans_le (row_end_le_row_start lt u.isLt)) (not_lt.mpr h'.1)
  | inr gt => exact absurd (h'.2.trans_le (row_end_le_row_start gt t.isLt)) (not_lt.mpr h.1)

/-- Every row belongs to a thread. -/
lemma rows_cover (pos : 1 ≤ num_threads) {i : ℕ} (hi : i < N) : ∃ t, i ∈ rows N num_threads t := by
  by_cases inner : i < row_start N num_threads (num_threads - 1)
  · have per : 0 < rows_per N num_threads := Nat.pos_of_mul_pos_left (Nat.zero_lt_of_lt inner)
    have lt : i / rows_per N num_threads < num_threads - 1 := (Nat.div_lt_iff_lt_mul per).mpr inner
    refine ⟨⟨i / rows_per N num_threads, by omega⟩, Nat.div_mul_le_self i _, ?_⟩
    simp only [row_end, if_neg lt.ne, row_start]
    rw [← Nat.succ_mul, Nat.mul_comm]
    exact Nat.lt_mul_div_succ i per
  · refine ⟨⟨num_threads - 1, by omega⟩, not_lt.mp inner, ?_⟩
    simp only [row_end, if_true]
    exact hi

end Rows

/-! ## `thread_func` -/

section Threads
variable {V : Type*} [Add V] [Mul V] (N num_threads : ℕ)

/-- What a thread does before the barrier. -/
def transpose_part (t : Fin num_threads) : List (Access Loc V (Registers V)) :=
  transpose_segment N (row_start N num_threads t) (row_end N num_threads t)

/-- What it does after the barrier. -/
def multiply_part (t : Fin num_threads) : List (Access Loc V (Registers V)) :=
  multiply_segment N (row_start N num_threads t) (row_end N num_threads t)

abbrev Threads (V : Type*) (num_threads : ℕ) := Phases (Fin num_threads) Loc V (Registers V)

def thread_step : Threads V num_threads → Fin num_threads → Threads V num_threads :=
  barrier_step (multiply_part N num_threads)

def threads_start (mem : Loc → V) (reg : Fin num_threads → Registers V) : Threads V num_threads :=
  ⟨⟨mem, reg, transpose_part N num_threads⟩, fun _ => .first⟩

/-- The elements of `B_T` that a thread writes. -/
def columns_of_rows (t : Fin num_threads) : Set Loc :=
  {a | ∃ i ∈ rows N num_threads t, ∃ j < N, a = .B_T (j * N + i)}

/-- The elements of `C` that a thread writes. -/
def entries_of_rows (t : Fin num_threads) : Set Loc :=
  {a | ∃ i ∈ rows N num_threads t, ∃ j < N, a = .C (i * N + j)}

end Threads

section Separate
variable {V : Type*} {N num_threads : ℕ}

/-- In the transposition the threads keep to the columns of their rows. -/
lemma separate_transpose :
    Separate (columns_of_rows N num_threads) (transpose_part (V := V) N num_threads) where
  writes t a x mem w := by
    obtain ⟨i, j, row, column, e | e⟩ := transpose_events mem
    · simp [e] at w
    · exact ⟨i, row, j, column, (AccessEvent.write.inj (e.symm.trans w)).symm⟩
  reads t a x mem r := by
    obtain ⟨i, j, _, _, e | e⟩ := transpose_events mem
    · rintro u _ ⟨_, _, _, _, rfl⟩
      simp [e] at r
    · simp [e] at r
  apart := by
    rintro t u ne _ ⟨i, row, j, column, rfl⟩ ⟨i', row', j', column', e⟩
    obtain ⟨_, rfl⟩ := entry_inj (rows_lt row) (rows_lt row') (Loc.B_T.inj e)
    exact ne (rows_apart row row')

/-- In the multiplication the threads keep to the entries of their rows. -/
lemma separate_multiply [Add V] [Mul V] :
    Separate (entries_of_rows N num_threads) (multiply_part (V := V) N num_threads) := by
  have apart : ∀ t u, t ≠ u → ∀ a ∈ entries_of_rows N num_threads t,
      a ∉ entries_of_rows N num_threads u := by
    rintro t u ne _ ⟨i, row, j, column, rfl⟩ ⟨i', row', j', column', e⟩
    obtain ⟨rfl, _⟩ := entry_inj column column' (Loc.C.inj e)
    exact ne (rows_apart row row')
  refine ⟨fun t a x mem w => ?_, fun t a x mem r u ne => ?_, apart⟩
  · obtain ⟨i, j, row, column, e | e | ⟨b, e | e⟩⟩ := multiply_events mem
    · simp [e] at w
    · exact ⟨i, row, j, column, (AccessEvent.write.inj (e.symm.trans w)).symm⟩
    · simp [e] at w
    · simp [e] at w
  · obtain ⟨i, j, row, column, e | e | ⟨b, e | e⟩⟩ := multiply_events mem
    · refine apart t u (Ne.symm ne) a ⟨i, row, j, column, ?_⟩
      exact (AccessEvent.read.inj (e.symm.trans r)).symm
    · simp [e] at r
    · rintro ⟨_, _, _, _, rfl⟩
      simp [e] at r
    · rintro ⟨_, _, _, _, rfl⟩
      simp [e] at r

end Separate

/-! ## The two phases -/

section Transposed
variable {V : Type*} {N num_threads : ℕ} {mem : Loc → V}
  {reg : Fin num_threads → Registers V} {s : Par (Fin num_threads) Loc V (Registers V)}
  {l : List (Fin num_threads × AccessEvent Loc)}
  {done : Fin num_threads → List (Access Loc V (Registers V))}

/-- Before the barrier every element of `B_T` is written at most once, and once when all have arrived. -/
lemma transpose_count (pos : 1 ≤ num_threads)
    (pro : Progress (columns_of_rows N num_threads) (threads_start N num_threads mem reg).par s l done)
    {b : ℕ} (hb : b < N * N) :
    l.countP (·.2 = .write (.B_T b)) ≤ 1 ∧
      ((∀ t, s.todo t = []) → l.countP (·.2 = .write (.B_T b)) = 1) := by
  obtain ⟨j, hj, i, hi, rfl⟩ := lt_mul_iff_entry.mp hb
  obtain ⟨t, row⟩ := rows_cover pos hi
  have own : Loc.B_T (j * N + i) ∈ columns_of_rows N num_threads t := ⟨i, row, j, hj, rfl⟩
  have whole : ((transpose_part (V := V) N num_threads t).filter
      (·.event = .write (.B_T (j * N + i)))).length = 1 := by
    rw [transpose_part, transpose_writes (row_end_le t.isLt) hi hj, if_pos (mem_rows.mp row)]
    rfl
  have split : transpose_part N num_threads t = done t ++ s.todo t := pro.split t
  rw [List.countP_eq_length_filter, pro.writes_owned separate_transpose own, List.length_map]
  rw [split, List.filter_append, List.length_append] at whole
  refine ⟨by omega, fun empty => ?_⟩
  rw [empty t] at whole
  simpa using whole

/-- When all threads have arrived, the memory is what one thread would have left. -/
lemma transposed (pos : 1 ≤ num_threads)
    (pro : Progress (columns_of_rows N num_threads) (threads_start N num_threads mem reg).par s l done)
    (empty : ∀ t, s.todo t = []) (r : Registers V) :
    s.mem = (Access.exec (mem, r) (transpose_segment N 0 N)).1 := by
  funext a
  by_cases entry : ∃ b < N * N, a = .B_T b
  · obtain ⟨b, hb, rfl⟩ := entry
    obtain ⟨j, hj, i, hi, rfl⟩ := lt_mul_iff_entry.mp hb
    obtain ⟨t, row⟩ := rows_cover pos hi
    have value := (pro.finished (empty t)).2 _ ⟨i, row, j, hj, rfl⟩
    refine value.trans ?_
    rw [exec_transpose_segment le_rfl hi hj, if_pos ⟨Nat.zero_le i, hi⟩]
    refine (exec_transpose_segment (row_end_le t.isLt) hi hj _).trans ?_
    rw [if_pos (mem_rows.mp row)]
    rfl
  · have other : ∀ b, a = .B_T b → N * N ≤ b := fun b e => by
      by_contra lt
      exact entry ⟨b, not_le.mp lt, e⟩
    rw [transpose_frame other]
    refine pro.free a fun t own => ?_
    obtain ⟨i, row, j, hj, e⟩ := own
    exact entry ⟨_, entry_lt hj (rows_lt row), e⟩

end Transposed

section Multiplied
variable {V : Type*} [Add V] [Mul V] {N num_threads : ℕ}
  {start s : Par (Fin num_threads) Loc V (Registers V)} {l : List (Fin num_threads × AccessEvent Loc)}
  {done : Fin num_threads → List (Access Loc V (Registers V))}

/-- The multiplication writes nothing beyond the matrix. -/
lemma multiply_frame {a : ℕ} (other : N * N ≤ a) (m : (Loc → V) × Registers V) :
    (Access.exec m (multiply_segment N 0 N)).1 (.C a) = m.1 (.C a) := by
  refine Access.exec_frame (fun x mem w => ?_) m
  obtain ⟨i, j, row, column, e | e | ⟨_, e | e⟩⟩ := multiply_events mem
  · simp [e] at w
  · have lt : i * N + j < N * N := entry_lt row.2 column
    have eq := Loc.C.inj (AccessEvent.write.inj (w.symm.trans e))
    omega
  · simp [e] at w
  · simp [e] at w

/-- When all threads are done, `C` is what one thread would have left. -/
lemma multiplied (pos : 1 ≤ num_threads)
    (pro : Progress (entries_of_rows N num_threads)
      { start with todo := multiply_part N num_threads } s l done)
    (empty : ∀ t, s.todo t = []) (r : Registers V) (a : ℕ) :
    s.mem (.C a) = (Access.exec (start.mem, r) (multiply_segment N 0 N)).1 (.C a) := by
  by_cases entry : a < N * N
  · obtain ⟨i, hi, j, hj, rfl⟩ := lt_mul_iff_entry.mp entry
    obtain ⟨t, row⟩ := rows_cover pos hi
    have value := (pro.finished (empty t)).2 _ ⟨i, row, j, hj, rfl⟩
    refine value.trans ?_
    rw [exec_multiply_segment hj, if_pos ⟨Nat.zero_le i, hi⟩]
    refine (exec_multiply_segment hj _).trans ?_
    rw [if_pos (mem_rows.mp row)]
  · rw [multiply_frame (not_lt.mp entry)]
    refine pro.free _ fun t own => ?_
    obtain ⟨i, row, j, hj, e⟩ := own
    rw [Loc.C.inj e] at entry
    exact entry (entry_lt (rows_lt row) hj)

end Multiplied

/-! ## Any schedule -/

section Schedules
variable {V : Type*} {N num_threads : ℕ} {mem : Loc → V} {reg : Fin num_threads → Registers V}

/-- Before the barrier `B_T` is not read and `C` is not written. -/
lemma transpose_quiet {s : Par (Fin num_threads) Loc V (Registers V)}
    {l : List (Fin num_threads × AccessEvent Loc)}
    {done : Fin num_threads → List (Access Loc V (Registers V))}
    (pro : Progress (columns_of_rows N num_threads) (threads_start N num_threads mem reg).par s l done)
    (t : Fin num_threads) (a : ℕ) : (t, .read (.B_T a)) ∉ l ∧ (t, .write (.C a)) ∉ l := by
  constructor
  all_goals
    intro h
    obtain ⟨x, hx, event⟩ := pro.access_of_start h
    obtain ⟨i, j, _, _, e | e⟩ := transpose_events hx
    all_goals simp [e] at event

variable [Add V] [Mul V]

/-- After the barrier `B_T` is not written. -/
lemma multiply_count {start s : Par (Fin num_threads) Loc V (Registers V)}
    {l : List (Fin num_threads × AccessEvent Loc)}
    {done : Fin num_threads → List (Access Loc V (Registers V))}
    (pro : Progress (entries_of_rows N num_threads)
      { start with todo := multiply_part N num_threads } s l done) (b : ℕ) :
    l.countP (·.2 = .write (.B_T b)) = 0 := by
  rw [List.countP_eq_zero]
  rintro ⟨t, e⟩ mem
  obtain ⟨x, hx, rfl⟩ := pro.access_of_start mem
  obtain ⟨i, j, _, _, e | e | ⟨_, e | e⟩⟩ := multiply_events hx
  all_goals simp [e]

/-- The states and events of `thread_func`. -/
abbrev Reached (N num_threads : ℕ) (mem : Loc → V) (reg : Fin num_threads → Registers V) :
    Threads V num_threads → List (Fin num_threads × AccessEvent Loc) → Prop :=
  Phased (multiply_part N num_threads) (columns_of_rows N num_threads)
    (entries_of_rows N num_threads) (threads_start N num_threads mem reg).par

variable {s : Threads V num_threads} {l : List (Fin num_threads × AccessEvent Loc)}

/-- No element of `B_T` is written twice. -/
lemma written_at_most_once (pos : 1 ≤ num_threads) (ph : Reached N num_threads mem reg s l) {b : ℕ}
    (hb : b < N * N) : l.countP (·.2 = .write (.B_T b)) ≤ 1 := by
  cases ph with
  | before _ _ pro => exact (transpose_count pos pro hb).1
  | after _ _ pro₁ _ pro₂ =>
    rw [List.countP_append, multiply_count pro₂, Nat.add_zero]
    exact (transpose_count pos pro₁ hb).1

/-- All of `B_T` is there before any of it is read. -/
lemma written_before_read (pos : 1 ≤ num_threads) (ph : Reached N num_threads mem reg s l)
    {before after : List (Fin num_threads × AccessEvent Loc)} {t : Fin num_threads} {a : ℕ}
    (e : l = before ++ (t, .read (.B_T a)) :: after) {b : ℕ} (hb : b < N * N) :
    before.countP (·.2 = .write (.B_T b)) = 1 := by
  cases ph with
  | before _ _ pro => exact absurd (by simp [e]) (transpose_quiet pro t a).1
  | @after mid l₁ l₂ _ _ _ _ pro₁ empty pro₂ =>
    have one := (transpose_count pos pro₁ hb).2 empty
    cases List.append_eq_append_iff.mp e with
    | inl late =>
      obtain ⟨between, rfl, rfl⟩ := late
      have none := multiply_count pro₂ b
      rw [List.countP_append] at none ⊢
      omega
    | inr early =>
      -- a read before the barrier would be one of `B`
      obtain ⟨rest, rfl, tail⟩ := early
      cases rest with
      | nil => rwa [List.append_nil] at one
      | cons x rest =>
        obtain ⟨rfl, _⟩ := List.cons.inj tail
        exact absurd (by simp) (transpose_quiet pro₁ t a).1

/-- An element of `C` is written by the thread of its row. -/
lemma one_writer (ph : Reached N num_threads mem reg s l) {t u : Fin num_threads} {a : ℕ}
    (ht : (t, .write (.C a)) ∈ l) (hu : (u, .write (.C a)) ∈ l) : t = u := by
  cases ph with
  | before _ _ pro => exact absurd ht (transpose_quiet pro t a).2
  | @after mid l₁ l₂ _ _ _ _ pro₁ _ pro₂ =>
    have own : ∀ {v : Fin num_threads}, (v, AccessEvent.write (.C a)) ∈ l₁ ++ l₂ →
        Loc.C a ∈ entries_of_rows N num_threads v := by
      intro v hv
      cases List.mem_append.mp hv with
      | inl hv => exact absurd hv (transpose_quiet pro₁ v a).2
      | inr hv => exact pro₂.writer separate_multiply hv
    by_contra ne
    exact separate_multiply (V := V) |>.apart t u ne _ (own ht) (own hu)

/-- At the end every element of `B_T` has been written once. -/
lemma written_once (pos : 1 ≤ num_threads) (ph : Reached N num_threads mem reg s l) (fin : s.Finished)
    {b : ℕ} (hb : b < N * N) : l.countP (·.2 = .write (.B_T b)) = 1 := by
  cases ph with
  | before early => exact absurd (fin ⟨0, pos⟩).1 (early _)
  | after _ _ pro₁ empty pro₂ =>
    rw [List.countP_append, multiply_count pro₂, Nat.add_zero]
    exact (transpose_count pos pro₁ hb).2 empty

/-- At the end every entry of `C` has been written by the thread of its row, and by no other. -/
lemma written_by (pos : 1 ≤ num_threads) (ph : Reached N num_threads mem reg s l) (fin : s.Finished)
    {t : Fin num_threads} {i j : ℕ} (row : i ∈ rows N num_threads t) (hj : j < N) (u : Fin num_threads) :
    (u, .write (.C (i * N + j))) ∈ l ↔ u = t := by
  have writes : (t, .write (.C (i * N + j))) ∈ l := by
    cases ph with
    | before early => exact absurd (fin ⟨0, pos⟩).1 (early _)
    | @after _ l₁ l₂ _ done₂ _ _ _ _ pro₂ =>
      have todo : (s.passed (multiply_part N num_threads)).todo t = [] := by
        simp [Phases.passed, fin t]
      obtain ⟨x, hx, event⟩ := multiply_stores (V := V) row hj
      have mem : (t, x.event) ∈ l₂.filter (·.1 = t) := by
        rw [pro₂.events t, (pro₂.finished todo).1]
        exact List.mem_map.mpr ⟨x, hx, rfl⟩
      rw [event] at mem
      exact List.mem_append_right l₁ (List.mem_filter.mp mem).1
  exact ⟨fun mem => one_writer ph mem writes, fun e => e ▸ writes⟩

/-- At the end `C` is what one thread leaves. -/
lemma final_product (pos : 1 ≤ num_threads) (ph : Reached N num_threads mem reg s l) (fin : s.Finished)
    (r : Registers V) (a : ℕ) : s.par.mem (.C a) =
      (Access.exec (mem, r) (transpose_segment N 0 N ++ multiply_segment N 0 N)).1 (.C a) := by
  cases ph with
  | before early => exact absurd (fin ⟨0, pos⟩).1 (early _)
  | after late idle pro₁ empty pro₂ =>
    have todo : ∀ t, (s.passed (multiply_part N num_threads)).todo t = [] := by
      intro t
      simp [Phases.passed, fin t]
    refine (multiplied pos pro₂ todo (Access.exec (mem, r) (transpose_segment N 0 N)).2 a).trans ?_
    rw [transposed pos pro₁ empty r, Access.exec, Access.exec, Access.exec, run_append]

/-- The threads' rows are a partition. Whatever the schedule, every element of `B_T` is written at most
once, and once before any of them is read, and every element of `C` is written by one thread only. When all
threads are done, every element of `B_T` has been written once, every entry of `C` by the thread of its row,
and `C` is what one thread leaves. -/
theorem parallel_multiply (pos : 1 ≤ num_threads) (mem : Loc → V) (reg : Fin num_threads → Registers V)
    (h : List (Fin num_threads)) :
    (Pairwise fun t u => Disjoint (rows N num_threads t) (rows N num_threads u)) ∧
      (⋃ t, rows N num_threads t) = Set.Iio N ∧
      let s := run (thread_step N num_threads) (threads_start N num_threads mem reg) h
      let l := trace (thread_step N num_threads) barrier_log (threads_start N num_threads mem reg) h
      (∀ b < N * N, l.countP (·.2 = .write (.B_T b)) ≤ 1) ∧
      (∀ before t a after, l = before ++ (t, .read (.B_T a)) :: after →
        ∀ b < N * N, before.countP (·.2 = .write (.B_T b)) = 1) ∧
      (∀ t u a, (t, .write (.C a)) ∈ l → (u, .write (.C a)) ∈ l → t = u) ∧
      (s.Finished → (∀ b < N * N, l.countP (·.2 = .write (.B_T b)) = 1) ∧
        (∀ t, ∀ i ∈ rows N num_threads t, ∀ j < N, ∀ u, (u, .write (.C (i * N + j))) ∈ l ↔ u = t) ∧
        ∀ r a, s.par.mem (.C a) =
          (Access.exec (mem, r) (transpose_segment N 0 N ++ multiply_segment N 0 N)).1 (.C a)) := by
  refine ⟨fun t u ne => ?_, Set.ext fun i => ?_, ?_⟩
  · exact Set.disjoint_left.mpr fun i hi hi' => ne (rows_apart hi hi')
  · rw [Set.mem_iUnion]
    exact ⟨fun ⟨t, row⟩ => rows_lt row, rows_cover pos⟩
  · intro s l
    have ph : Reached N num_threads mem reg s l := phased_run separate_transpose separate_multiply h
    exact ⟨fun b hb => written_at_most_once pos ph hb,
      fun before t a after e b hb => written_before_read pos ph e hb,
      fun t u a ht hu => one_writer ph ht hu, fun fin => ⟨fun b hb => written_once pos ph fin hb,
        fun t i row j hj u => written_by pos ph fin row hj u, fun r a => final_product pos ph fin r a⟩⟩

/-- The square of a matrix of two rows and columns, with a row for each of two threads. -/
lemma multiply_part_two : multiply_part (V := V) 2 2 =
    fun t : Fin 2 => multiply_entry 2 (t : ℕ) 0 0 2 ++ multiply_entry 2 (t : ℕ) 1 0 2 := by
  have columns : tiles 0 2 = [(0, 2)] := tiles_single Nat.zero_lt_two (by decide)
  have first : tiles 0 1 = [(0, 1)] := tiles_single Nat.zero_lt_one (by decide)
  have second : tiles 1 2 = [(1, 2)] := tiles_single Nat.one_lt_two (by decide)
  funext t
  fin_cases t
  · simp [multiply_part, multiply_segment, row_start, row_end, rows_per, columns, first, List.Ico, List.range']
  · simp [multiply_part, multiply_segment, row_start, row_end, rows_per, columns, second, List.Ico,
      List.range']

/-- The entries of the matrix, and an empty `C`. -/
def square : Loc → ℕ
  | .A a | .B a => a + 1
  | .B_T _ | .C _ => 0

/-- The threads take turns at every access. -/
def turns : List (Fin 2) := (List.replicate 18 [0, 1]).flatten

/-- Two threads that take turns at every access, one row each. -/
theorem parallel_multiply_two :
    let s := run (thread_step 2 2) (threads_start 2 2 square fun _ => ⟨0, 0, 0⟩) turns
    let l := trace (thread_step 2 2) barrier_log (threads_start 2 2 square fun _ => ⟨0, 0, 0⟩) turns
    (∀ b < 2 * 2, l.countP (·.2 = .write (.B_T b)) = 1) ∧
      (∀ t, ∀ i ∈ rows 2 2 t, ∀ j < 2, ∀ u, (u, .write (.C (i * 2 + j))) ∈ l ↔ u = t) ∧
      ∀ a, s.par.mem (.C a) =
        (Access.exec (square, ⟨0, 0, 0⟩) (transpose_segment 2 0 2 ++ multiply_segment 2 0 2)).1 (.C a) := by
  intro s l
  have fin : s.Finished := by
    simp only [s, thread_step, multiply_part_two]
    decide +kernel
  obtain ⟨once, writer, same⟩ :=
    (parallel_multiply (by decide) square (fun _ => ⟨0, 0, 0⟩) turns).2.2.2.2.2 fin
  exact ⟨once, writer, same ⟨0, 0, 0⟩⟩

/-- The threads end, whatever the number of threads and rows: no run has more steps than the accesses of
all threads and two for the barrier each, and under every schedule that lets each thread move again and
again all threads return, and `C`, which was filled with `zero`, is the product. -/
theorem parallel_completes (pos : 1 ≤ num_threads) (mem : Loc → V) (zero : V)
    (zeroed : ∀ a < N * N, mem (.C a) = zero) (reg : Fin num_threads → Registers V) :
    let step := thread_step (V := V) N num_threads
    let start := threads_start N num_threads mem reg
    (∀ h, Always step (fun s t => step s t ≠ s) start h →
      h.length ≤ ∑ t, ((transpose_part (V := V) N num_threads t).length + 2 +
        (multiply_part (V := V) N num_threads t).length)) ∧
    ∀ w, Fair (fun _ => True) w → ∃ n, ∀ k, n ≤ k →
      (run step start (firsts w k)).Finished ∧ ∀ i < N, ∀ j < N,
        (run step start (firsts w k)).par.mem (.C (i * N + j)) = plain_entry zero mem N i j := by
  intro step start
  have off := barrier_works_off (multiply_part (V := V) N num_threads)
  constructor
  · intro h moves
    have le := off.length_le (s := start) trivial moves
    exact (Nat.le_add_right _ _).trans le
  · intro w fair
    obtain ⟨n, rest, same⟩ := off.settles (s := start) trivial fair
    refine ⟨n, fun k le => ?_⟩
    have fin : (run step start (firsts w k)).Finished := by
      rw [show run step start (firsts w k) = run step start (firsts w n) from same k le]
      exact finished_at_rest rest
    refine ⟨fin, fun i hi j hj => ?_⟩
    have ph : Reached N num_threads mem reg (run step start (firsts w k)) _ :=
      phased_run separate_transpose separate_multiply (firsts w k)
    have product := final_product pos ph fin (reg ⟨0, pos⟩) (i * N + j)
    rw [Access.exec, run_append] at product
    exact product.trans (exec_tiled le_rfl zeroed (Nat.zero_le i) hi hj)

/-- Two threads that take turns at the square of a matrix. -/
theorem parallel_completes_two : ∃ n, ∀ k, n ≤ k → ∀ i < 2, ∀ j < 2,
    (run (thread_step 2 2) (threads_start 2 2 square fun _ => ⟨0, 0, 0⟩)
      (firsts (round_robin 0 [1]) k)).par.mem (.C (i * 2 + j)) = plain_entry 0 square 2 i j := by
  have fair : Fair (fun _ => True) (round_robin (0 : Fin 2) [1]) :=
    fun t _ => fair_round_robin 0 [1] t (by fin_cases t <;> simp)
  obtain ⟨n, ends⟩ := (parallel_completes (by decide) square 0 (fun _ _ => rfl)
    fun _ : Fin 2 => ⟨0, 0, 0⟩).2 _ fair
  exact ⟨n, fun k le => (ends k le).2⟩

end Schedules

end CS519.Matmul
