import CS519.Matmul.Segments

/-!
# The tiled and the plain multiplication

`transpose_segment` over all rows and then `multiply_segment` over some of them, compared with the plain
triple loop. Nothing is assumed of the addition and the multiplication, so the order of the operations has
to agree, too: each entry is the sum from left to right, as the plain loop computes it (`tiled_exact`).
-/

namespace CS519.Matmul
open Function

/-- The triples of row, column and `k` in the order in which the six loops of `multiply_segment` come to
them. -/
def visited (N row_start row_end : ℕ) : List (ℕ × ℕ × ℕ) :=
  (tiles row_start row_end).flatMap fun (i, i_end) =>
    (tiles 0 N).flatMap fun (j, j_end) =>
      (tiles 0 N).flatMap fun (k, k_end) =>
        (List.Ico i i_end).flatMap fun ii =>
          (List.Ico j j_end).flatMap fun jj =>
            (List.Ico k k_end).map fun kk => (ii, jj, kk)

/-- The factor that an access reads. -/
def factor_of {V : Type*} : Access Loc V (Registers V) → Option Loc
  | .read (.A a) _ => some (.A a)
  | .read (.B_T a) _ => some (.B_T a)
  | _ => none

/-- One entry of the plain multiplication, with `sum` starting at `zero`. -/
def plain_entry {V : Type*} [Add V] [Mul V] (zero : V) (mem : Loc → V) (N i j : ℕ) : V :=
  (List.range N).foldl (fun sum k => sum + mem (.A (i * N + k)) * mem (.B (k * N + j))) zero

section Order
variable {N row_start row_end i j k : ℕ}

/-- The triples of one entry. -/
lemma visited_entry (N row_start row_end i j : ℕ) :
    ((visited N row_start row_end).filter fun t => t.1 = i ∧ t.2.1 = j).map (·.2.2) =
      visits N row_start row_end i j := by
  have products : ∀ k k_end ii jj : ℕ,
      (((List.Ico k k_end).map fun kk => (ii, jj, kk)).filter fun t => t.1 = i ∧ t.2.1 = j).map
        (·.2.2) = if ii = i ∧ jj = j then List.Ico k k_end else [] := by
    intro k k_end ii jj
    by_cases same : ii = i ∧ jj = j
    · simp [same, List.filter_map, List.map_map, comp_def]
    · simp [same, List.filter_map, comp_def]
  simp only [visited, visits, List.filter_flatMap, List.map_flatMap, products]

/-- Every triple is visited once. -/
lemma count_visited : (visited N row_start row_end).count (i, j, k) =
    if (row_start ≤ i ∧ i < row_end) ∧ j < N ∧ k < N then 1 else 0 := by
  have ks := visited_entry N row_start row_end i j
  rw [visits_entry] at ks
  have count : (visited N row_start row_end).count (i, j, k) =
      ((((visited N row_start row_end).filter fun t => t.1 = i ∧ t.2.1 = j).map (·.2.2)).count k) := by
    rw [List.count, List.count, List.countP_map, List.countP_filter]
    refine List.countP_congr fun t _ => ?_
    obtain ⟨a, b, c⟩ := t
    simp
    tauto
  rw [count, ks]
  by_cases entry : row_start ≤ i ∧ i < row_end ∧ j < N
  · rw [if_pos entry]
    by_cases lt : k < N
    · rw [List.count_eq_one_of_mem List.nodup_range (List.mem_range.mpr lt),
        if_pos ⟨⟨entry.1, entry.2.1⟩, entry.2.2, lt⟩]
    · rw [List.count_eq_zero_of_not_mem (mt List.mem_range.mp lt), if_neg fun h => lt h.2.2]
  · rw [if_neg entry, if_neg fun h => entry ⟨h.1.1, h.1.2, h.2.1⟩, List.count_nil]

/-- The two factors of every product are read at its turn. -/
lemma factors_read {V : Type*} [Add V] [Mul V] (N row_start row_end : ℕ) :
    (multiply_segment (V := V) N row_start row_end).filterMap factor_of =
      (visited N row_start row_end).flatMap fun t =>
        [.A (t.1 * N + t.2.2), .B_T (t.2.1 * N + t.2.2)] := by
  have entry : ∀ ii jj k k_end, (multiply_entry (V := V) N ii jj k k_end).filterMap factor_of =
      ((List.Ico k k_end).map fun kk => (ii, jj, kk)).flatMap fun t =>
        [.A (t.1 * N + t.2.2), .B_T (t.2.1 * N + t.2.2)] := by
    intro ii jj k k_end
    rw [multiply_entry, List.filterMap_append, List.filterMap_cons]
    simp [factor_of, List.filterMap_flatMap, List.flatMap_map]
  simp only [multiply_segment, visited, List.filterMap_flatMap, List.flatMap_assoc, entry]

end Order

section Exact
variable {V : Type*} {N i j : ℕ} {s : (Loc → V) × Registers V}

/-- The sums over the transposed matrix are those of the plain loop. -/
lemma accumulate_transposed [Add V] [Mul V] (hj : j < N) (sum : V) :
    accumulate (Access.exec s (transpose_segment N 0 N)).1 N i j (List.range N) sum =
      plain_entry sum s.1 N i j := by
  refine List.foldl_ext _ _ _ fun sum k mem => ?_
  have hk := List.mem_range.mp mem
  rw [transpose_frame (by simp), exec_transpose_segment le_rfl hk hj, if_pos ⟨Nat.zero_le k, hk⟩]

/-- What the transposition of all rows and the multiplication of some leave in the entries of these. -/
lemma exec_tiled [Add V] [Mul V] {zero : V} {row_start row_end : ℕ} (rows : row_end ≤ N)
    (zeroed : ∀ a < N * N, s.1 (.C a) = zero) (le : row_start ≤ i) (lt : i < row_end) (hj : j < N) :
    (Access.exec (Access.exec s (transpose_segment N 0 N)) (multiply_segment N row_start row_end)).1
      (.C (i * N + j)) = plain_entry zero s.1 N i j := by
  have entry : i * N + j < N * N := entry_lt (lt.trans_le rows) hj
  rw [exec_multiply_segment hj, if_pos ⟨le, lt⟩, accumulate_transposed hj, transpose_frame (by simp),
    zeroed _ entry]

end Exact

/-- For entries of any type with an addition and a multiplication, and `C` filled with `zero`: after a
transposition of all rows, the multiplication of some rows leaves in each of their entries what the plain
loop computes, product after product, and leaves the other rows alone. It visits every triple of the rows
once, and reads the two factors of each in turn. -/
theorem tiled_exact {V : Type*} [Add V] [Mul V] (zero : V) (N row_start row_end : ℕ) (rows : row_end ≤ N)
    (s : (Loc → V) × Registers V) (zeroed : ∀ a < N * N, s.1 (.C a) = zero) :
    let after := Access.exec (Access.exec s (transpose_segment N 0 N)) (multiply_segment N row_start row_end)
    (∀ i j, row_start ≤ i → i < row_end → j < N →
      after.1 (.C (i * N + j)) = plain_entry zero s.1 N i j) ∧
    (∀ i j, ¬(row_start ≤ i ∧ i < row_end) → j < N → after.1 (.C (i * N + j)) = s.1 (.C (i * N + j))) ∧
    (∀ i j k, (visited N row_start row_end).count (i, j, k) =
      if (row_start ≤ i ∧ i < row_end) ∧ j < N ∧ k < N then 1 else 0) ∧
    (multiply_segment (V := V) N row_start row_end).filterMap factor_of =
      (visited N row_start row_end).flatMap fun t =>
        [.A (t.1 * N + t.2.2), .B_T (t.2.1 * N + t.2.2)] := by
  intro after
  refine ⟨fun i j le lt hj => exec_tiled rows zeroed le lt hj, fun i j outside hj => ?_,
    fun i j k => count_visited, factors_read N row_start row_end⟩
  rw [exec_multiply_segment hj, if_neg outside, transpose_frame (by simp)]

/-- The first row of the square of a 2 × 2 matrix. -/
theorem tiled_exact_two :
    (Access.exec (Access.exec ((fun | .A a => a + 1 | .B a => a + 1 | _ => 0 : Loc → ℕ), ⟨0, 0, 0⟩)
      (transpose_segment 2 0 2)) (multiply_segment 2 0 1)).1 (.C 1) = 10 :=
  (tiled_exact 0 2 0 1 (by decide) ((fun | .A a => a + 1 | .B a => a + 1 | _ => 0 : Loc → ℕ), ⟨0, 0, 0⟩)
    (fun _ _ => rfl)).1 0 1 le_rfl Nat.one_pos Nat.one_lt_two

end CS519.Matmul
