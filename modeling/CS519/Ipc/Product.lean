import Mathlib.Data.BitVec
import Mathlib.Data.Matrix.Mul
import Mathlib.Tactic
import CS519.Arrays

/-!
# Rows of a matrix product

The functions that the three IPC programs share: `vector_mult`, by which a child computes one row, and
`verify`, by which the parent checks the whole. A matrix is the array of its entries, row after row.

An `int` is a word of 32 bits. Sums wrap, so a row is right whenever its entries fit an `int`
(`product_of_rows`); where they do not, the C programs have no defined behaviour.
-/

namespace CS519.Ipc

abbrev int := BitVec 32

section Functions
variable (m : ℕ) (A B : ℕ → int)

/-- The row of the product, entry by entry, as it is left in `res`. -/
def vector_mult (row : ℕ) : List int :=
  (List.range m).map fun i =>
    (List.range m).foldl (fun res j => res + A (row * m + j) * B (j * m + i)) 0

/-- The sum that `verify` compares with the entry. -/
def verify_sum (i j : ℕ) : int :=
  (List.range m).foldl (fun sum k => sum + A (i * m + k) * B (k * m + j)) 0

/-- 1 if every entry is the sum, and 0 at the first one that is not. -/
def verify (C : ℕ → int) : ℤ :=
  if (List.range m).all fun i => (List.range m).all fun j => verify_sum m A B i j = C (i * m + j)
  then 1 else 0

end Functions

section Rows
variable {m : ℕ} {A B C : ℕ → int} {i j : ℕ}

/-- A row of the product has `m` elements. -/
@[simp] lemma length_vector_mult (m row : ℕ) (A B : ℕ → int) : (vector_mult m A B row).length = m := by
  simp [vector_mult]

/-- The children and the parent compute the same sums. -/
lemma getElem_vector_mult (h : j < (vector_mult m A B i).length) :
    (vector_mult m A B i)[j] = verify_sum m A B i j := by
  simp [vector_mult, verify_sum]

/-- The array holds the row that `vector_mult` computes, in every row. -/
def rows_computed (m : ℕ) (A B C : ℕ → int) : Prop :=
  ∀ i < m, ∀ j < m, (vector_mult m A B i)[j]? = some (C (i * m + j))

/-- An array with the computed rows, from its entries. -/
lemma rows_computed_of_getD {C : ℕ → int}
    (h : ∀ i < m, ∀ j < m, C (i * m + j) = (vector_mult m A B i).getD j 0) :
    rows_computed m A B C := by
  intro i hi j hj
  have len : j < (vector_mult m A B i).length := by simpa using hj
  rw [h i hi j hj, List.getD_eq_getElem?_getD, List.getElem?_eq_getElem len]
  rfl

/-- `verify` accepts the arrays that hold the computed rows, and no others. -/
theorem verify_iff : verify m A B C = 1 ↔ rows_computed m A B C := by
  have accept : verify m A B C = 1 ↔ ∀ i < m, ∀ j < m, verify_sum m A B i j = C (i * m + j) := by
    simp [verify]
  rw [accept]
  refine forall₂_congr fun i hi => forall₂_congr fun j hj => ?_
  have len : j < (vector_mult m A B i).length := by simpa using hj
  rw [List.getElem?_eq_getElem len, getElem_vector_mult, Option.some_inj]

end Rows

/-! ## The matrix product -/

section Matrix
variable {m : ℕ} {A B C : ℕ → int}

/-- The matrix that an array holds. -/
def matrix (m : ℕ) (A : ℕ → int) : Matrix (Fin m) (Fin m) ℤ :=
  fun i j => (A (i * m + j)).toInt

/-- Every entry of the product fits an `int`. -/
def product_fits (m : ℕ) (A B : ℕ → int) : Prop :=
  ∀ i j, -2 ^ 31 ≤ (matrix m A * matrix m B) i j ∧ (matrix m A * matrix m B) i j < 2 ^ 31

/-- An accumulating loop computes the sum. -/
lemma foldl_range_eq_sum {R : Type*} [AddCommMonoid R] (f : ℕ → R) (n : ℕ) :
    (List.range n).foldl (fun acc k => acc + f k) 0 = ∑ k ∈ Finset.range n, f k := by
  induction n with
  | zero => rfl
  | succ n ih => rw [List.range_succ, List.foldl_append, ih, Finset.sum_range_succ]; rfl

/-- The sum in 32 bits is the word of the entry of the product. -/
lemma verify_sum_eq (i j : Fin m) :
    verify_sum m A B i j = BitVec.ofInt 32 ((matrix m A * matrix m B) i j) := by
  have word : ∀ x : int, (Int.castRingHom int) x.toInt = x := fun x => BitVec.ofInt_toInt
  have hom : BitVec.ofInt 32 ((matrix m A * matrix m B) i j) =
      Int.castRingHom int ((matrix m A * matrix m B) i j) := rfl
  rw [hom, Matrix.mul_apply, map_sum, verify_sum, foldl_range_eq_sum, ← Fin.sum_univ_eq_sum_range
    (fun k => A (i * m + k) * B (k * m + j))]
  refine Finset.sum_congr rfl fun k _ => ?_
  rw [map_mul, matrix, matrix, word, word]

/-- If all rows are the computed ones, the array holds the product. -/
theorem product_of_rows (fits : product_fits m A B) (rows : rows_computed m A B C) :
    matrix m C = matrix m A * matrix m B := by
  funext i j
  have len : (j : ℕ) < (vector_mult m A B i).length := by simp
  have entry := rows i i.isLt j j.isLt
  rw [List.getElem?_eq_getElem len, getElem_vector_mult, Option.some_inj] at entry
  obtain ⟨lo, hi⟩ := fits i j
  rw [matrix, ← entry, verify_sum_eq]
  exact BitVec.toInt_ofInt_eq_self (by decide) lo hi

/-- The entries 1 to 4, row after row. -/
def one_to_four : ℕ → int := fun a => .ofNat 32 (a + 1)

/-- The product of a 2 × 2 matrix with itself fits. -/
lemma one_to_four_fits : product_fits 2 one_to_four one_to_four := by
  intro i j
  rw [Matrix.mul_apply, Fin.sum_univ_two]
  revert i j
  decide

end Matrix

end CS519.Ipc
