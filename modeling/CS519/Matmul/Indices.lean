import CS519.CInt
import CS519.Matmul.Threads

/-!
# The indices of `matrix.c`

`main` allocates and fills the matrices with sizes in `size_t` and `long`, but both segments index in `int`.
The loops below evaluate the indices and the tile bounds with checked arithmetic, and nothing else. Every
thread gets through exactly if `N` is at most 46340, the greatest number whose square fits an `int`
(`indices_fit_iff`).
-/

namespace CS519.Matmul

/-- The indices that `transpose_segment` evaluates. -/
def transpose_indices (N row_start row_end : ℕ) : Option Unit :=
  (List.Ico row_start row_end).forM fun i =>
    (List.range N).forM fun j => do
      let _ ← CInt.index (N * N) j N i
      let _ ← CInt.index (N * N) i N j

/-- The tile bounds and the indices that `multiply_segment` evaluates. -/
def multiply_indices (N row_start row_end : ℕ) : Option Unit :=
  (tiles row_start row_end).forM fun (i, i_end) => do
    let _ ← CInt.add i BLOCK
    (tiles 0 N).forM fun (j, j_end) => do
      let _ ← CInt.add j BLOCK
      (tiles 0 N).forM fun (k, k_end) => do
        let _ ← CInt.add k BLOCK
        (List.Ico i i_end).forM fun ii =>
          (List.Ico j j_end).forM fun jj => do
            let _ ← CInt.index (N * N) ii N jj
            (List.Ico k k_end).forM fun kk => do
              let _ ← CInt.index (N * N) ii N kk
              let _ ← CInt.index (N * N) jj N kk
            let _ ← CInt.index (N * N) ii N jj

/-- No index and no tile bound of any thread overflows, and all indices lie in the matrices. -/
def IndicesFit (N num_threads : ℕ) : Prop :=
  ∀ t < num_threads,
    transpose_indices N (row_start N num_threads t) (row_end N num_threads t) = some () ∧
      multiply_indices N (row_start N num_threads t) (row_end N num_threads t) = some ()

section Fit
variable {N row_start row_end i j : ℕ}

/-- A tile begins inside the loop. -/
lemma tiles_start_lt {lo hi : ℕ} {t : ℕ × ℕ} (mem : t ∈ tiles lo hi) : t.1 < hi := by
  fun_induction tiles lo hi with
  | case1 lo more ih =>
    cases List.mem_cons.mp mem with
    | inl e => exact e ▸ more
    | inr mem => exact ih mem
  | case2 lo done => simp at mem

variable (small : N ≤ 46340)
include small

/-- An index of the matrix fits an `int`. -/
lemma index_fits (hi : i < N) (hj : j < N) : CInt.index (N * N) i N j = some (i * N + j) := by
  have entry : i * N + j < N * N := entry_lt hi hj
  exact CInt.index_eq (entry.le.trans (CInt.square_fits_iff.mpr small)) entry

/-- The bound of a tile fits an `int`. -/
lemma bound_fits (hi : i < N) : CInt.add i BLOCK = some ((i + BLOCK : ℕ) : ℤ) := by
  refine CInt.add_nat ?_
  unfold CInt.INT_MAX BLOCK
  omega

/-- No index of the transposition overflows. -/
lemma transpose_fits (rows : row_end ≤ N) : transpose_indices N row_start row_end = some () := by
  refine CInt.forM_eq_some.mpr fun i hi => CInt.forM_eq_some.mpr fun j hj => ?_
  have row := (List.Ico.mem.mp hi).2.trans_le rows
  have column := List.mem_range.mp hj
  rw [index_fits small column row, index_fits small row column]
  rfl

/-- No index of the multiplication overflows. -/
lemma multiply_fits (rows : row_end ≤ N) : multiply_indices N row_start row_end = some () := by
  refine CInt.forM_eq_some.mpr fun (i, i_end) hi => ?_
  have start := bound_fits small ((tiles_start_lt hi).trans_le rows)
  simp only [start, Option.bind_eq_bind, Option.bind_some]
  refine CInt.forM_eq_some.mpr fun (j, j_end) hj => ?_
  simp only [bound_fits small (tiles_start_lt hj), Option.bind_some]
  refine CInt.forM_eq_some.mpr fun (k, k_end) hk => ?_
  simp only [bound_fits small (tiles_start_lt hk), Option.bind_some]
  refine CInt.forM_eq_some.mpr fun ii hii => CInt.forM_eq_some.mpr fun jj hjj => ?_
  have row := (List.Ico.mem.mp hii).2.trans_le ((mem_tiles hi).2.trans rows)
  have column := (List.Ico.mem.mp hjj).2.trans_le (mem_tiles hj).2
  have products : ((List.Ico k k_end).forM fun kk =>
      (CInt.index (N * N) ii N kk).bind fun _ => (CInt.index (N * N) jj N kk).bind fun _ =>
        pure ()) = some () := by
    refine CInt.forM_eq_some.mpr fun kk hkk => ?_
    have factor := (List.Ico.mem.mp hkk).2.trans_le (mem_tiles hk).2
    rw [index_fits small row factor, index_fits small column factor]
    rfl
  rw [index_fits small row column, Option.bind_some, products]
  rfl

end Fit

/-- The transposition of the last entry overflows. -/
lemma transpose_overflows {N row_start row_end : ℕ} (large : 46340 < N)
    (last : row_start ≤ N - 1 ∧ N - 1 < row_end) : transpose_indices N row_start row_end ≠ some () := by
  intro fits
  have row := CInt.forM_eq_some.mp fits (N - 1) (List.Ico.mem.mpr last)
  have entry := CInt.forM_eq_some.mp row (N - 1) (List.mem_range.mpr (by omega))
  have overflow : CInt.INT_MAX < (N - 1) * N + (N - 1) := by
    have product : 46340 * 46341 ≤ (N - 1) * N := Nat.mul_le_mul (by omega) large
    unfold CInt.INT_MAX
    omega
  rw [CInt.index_none overflow] at entry
  simp at entry

/-- For every size and every number of threads, no index and no tile bound overflows or lies outside the
matrices if and only if the size is at most 46340. -/
theorem indices_fit_iff (N num_threads : ℕ) (pos : 1 ≤ N) (threads : 1 ≤ num_threads) :
    IndicesFit N num_threads ↔ N ≤ 46340 := by
  constructor
  · intro fits
    by_contra large
    -- some thread transposes the last row
    obtain ⟨t, last⟩ := rows_cover threads (Nat.sub_lt pos Nat.one_pos)
    exact transpose_overflows (not_le.mp large) last (fits t t.isLt).1
  · intro small t ht
    exact ⟨transpose_fits small (row_end_le ht), multiply_fits small (row_end_le ht)⟩

/-- The default size with four threads. -/
theorem indices_fit_iff_default : IndicesFit 10000 4 :=
  (indices_fit_iff 10000 4 (by decide) (by decide)).mpr (by decide)

/-- One thread and the least size whose square does not fit. -/
theorem not_indices_fit :
    ¬∀ N num_threads : ℕ, 1 ≤ N → N ≤ CInt.INT_MAX → 1 ≤ num_threads → IndicesFit N num_threads := by
  intro all
  have fits := all 46341 1 (by decide) (by decide) le_rfl 0 Nat.one_pos
  exact transpose_overflows (by decide) (by decide) fits.1

end CS519.Matmul
