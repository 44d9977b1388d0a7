import CS519.CInt
import CS519.Ipc.Product

/-!
# Overflow and bounds

`vector_mult` and `verify` with checked arithmetic: they return nothing if a product, a sum or an index
does not fit an `int`, or if an index lies outside its matrix. For matrices of decimal digits whose size
fits an `int` that does not happen, so the unchecked functions compute the exact sums, and `verify` accepts
an array exactly if its rows are the ones that `vector_mult` writes (`verify_exact`).
-/

namespace CS519.Ipc

section Functions
variable (m : ℕ) (A B : ℕ → int)

/-- The entry `A[i*m+j]`. -/
def load (i j : ℕ) : Option ℤ := do
  let a ← CInt.index (m * m) i m j
  return (A a).toInt

def vector_mult_checked (row : ℕ) : Option (List ℤ) :=
  (List.range m).mapM fun i =>
    (List.range m).foldlM (fun res j => do
      let a ← load m A row j
      let b ← load m B j i
      CInt.add res (← CInt.mul a b)) 0

/-- The loops are left at the first entry that is not the sum. -/
def verify_checked (C : ℕ → int) : Option ℤ := do
  let wrong ← (List.range m).anyM fun i => (List.range m).anyM fun j => do
    let sum ← (List.range m).foldlM (fun sum k => do
      let a ← load m A i k
      let b ← load m B k j
      CInt.add sum (← CInt.mul a b)) 0
    let c ← load m C i j
    return decide (sum ≠ c)
  return if wrong then 0 else 1

end Functions

/-- The entries are decimal digits, as `main` draws them. -/
def digits (m : ℕ) (A : ℕ → int) : Prop := ∀ a < m * m, 0 ≤ (A a).toInt ∧ (A a).toInt ≤ 9

section Exact
variable {m : ℕ} {A B C : ℕ → int} {i j : ℕ}

/-- The sum without overflow. -/
def exact_sum (m : ℕ) (A B : ℕ → int) (i j : ℕ) : ℤ :=
  ∑ k ∈ Finset.range m, (A (i * m + k)).toInt * (B (k * m + j)).toInt

/-- Entries are loaded from inside the matrix. -/
lemma load_eq (fits : m * m ≤ CInt.INT_MAX) (hi : i < m) (hj : j < m) :
    load m A i j = some (A (i * m + j)).toInt := by
  have lt := entry_lt hi hj
  rw [load, CInt.index_eq (lt.le.trans fits) lt]
  rfl

/-- The products of digits are small. -/
lemma digit_products (hA : digits m A) (hB : digits m B) (hi : i < m) (hj : j < m) :
    ∀ k < m, 0 ≤ (A (i * m + k)).toInt * (B (k * m + j)).toInt ∧
      (A (i * m + k)).toInt * (B (k * m + j)).toInt ≤ 81 := by
  intro k hk
  obtain ⟨a0, a9⟩ := hA _ (entry_lt hi hk)
  obtain ⟨b0, b9⟩ := hB _ (entry_lt hk hj)
  exact ⟨mul_nonneg a0 b0, mul_le_mul a9 b9 b0 (by norm_num)⟩

/-- So many products of digits fit an `int`. -/
lemma products_fit (fits : m * m ≤ CInt.INT_MAX) : m * 81 ≤ CInt.INT_MAX := by
  have small := CInt.square_fits_iff.mp fits
  unfold CInt.INT_MAX
  omega

variable (fits : m * m ≤ CInt.INT_MAX) (hA : digits m A) (hB : digits m B)
include fits hA hB

/-- Both inner loops compute the exact sum. -/
lemma checked_sum (hi : i < m) (hj : j < m) :
    (List.range m).foldlM (fun sum k => do
      let a ← load m A i k
      let b ← load m B k j
      CInt.add sum (← CInt.mul a b)) 0 = some (exact_sum m A B i j) := by
  have products := digit_products hA hB hi hj
  refine CInt.foldlM_add (fun k hk sum => ?_) products (products_fit fits)
  obtain ⟨lo, le⟩ := products k hk
  rw [load_eq fits hi hk, load_eq fits hk hj]
  simp only [Option.bind_eq_bind, Option.bind_some]
  rw [CInt.mul, CInt.value_eq (by omega) (by omega), Option.bind_some]

/-- The sum of words is the exact one. -/
lemma toInt_verify_sum (hi : i < m) (hj : j < m) :
    (verify_sum m A B i j).toInt = exact_sum m A B i j := by
  have word : ∀ x : int, (Int.castRingHom int) x.toInt = x := fun x => BitVec.ofInt_toInt
  have sum : verify_sum m A B i j = Int.castRingHom int (exact_sum m A B i j) := by
    rw [verify_sum, foldl_range_eq_sum, exact_sum, map_sum]
    refine Finset.sum_congr rfl fun k _ => ?_
    rw [map_mul, word, word]
  have products := digit_products hA hB hi hj
  have lo : 0 ≤ exact_sum m A B i j :=
    Finset.sum_nonneg fun k mem => (products k (Finset.mem_range.mp mem)).1
  have le : exact_sum m A B i j ≤ m * 81 := by
    refine (Finset.sum_le_card_nsmul _ _ 81 fun k mem => (products k (Finset.mem_range.mp mem)).2).trans ?_
    simp
  have bound := products_fit fits
  unfold CInt.INT_MAX at bound
  rw [sum]
  exact BitVec.toInt_ofInt_eq_self (by decide) (by omega) (by omega)

/-- No row of the product overflows. -/
lemma vector_mult_checked_eq (hi : i < m) :
    vector_mult_checked m A B i = some ((vector_mult m A B i).map BitVec.toInt) := by
  rw [vector_mult_checked, CInt.mapM_eq_some fun j mem =>
    checked_sum fits hA hB hi (List.mem_range.mp mem), vector_mult, List.map_map]
  refine congrArg some (List.map_congr_left fun j mem => ?_)
  exact (toInt_verify_sum fits hA hB hi (List.mem_range.mp mem)).symm

/-- The comparison overflows nowhere. -/
lemma verify_checked_eq : verify_checked m A B C = some (verify m A B C) := by
  have entries : ∀ i < m, ∀ j < m, (do
      let sum ← (List.range m).foldlM (fun sum k => do
        let a ← load m A i k
        let b ← load m B k j
        CInt.add sum (← CInt.mul a b)) 0
      let c ← load m C i j
      return decide (sum ≠ c)) = some (decide (verify_sum m A B i j ≠ C (i * m + j))) := by
    intro i hi j hj
    rw [checked_sum fits hA hB hi hj, load_eq fits hi hj, ← toInt_verify_sum fits hA hB hi hj]
    simp only [Option.bind_eq_bind, Option.bind_some, ne_eq, BitVec.toInt_inj]
    rfl
  have rows := CInt.anyM_eq_some fun i (hi : i ∈ List.range m) =>
    CInt.anyM_eq_some fun j (hj : j ∈ List.range m) =>
      entries i (List.mem_range.mp hi) j (List.mem_range.mp hj)
  have wrong : (List.range m).any (fun i => (List.range m).any fun j =>
      decide (verify_sum m A B i j ≠ C (i * m + j))) =
        !(List.range m).all fun i => (List.range m).all fun j => verify_sum m A B i j = C (i * m + j) := by
    simp only [List.not_all_eq_any_not, decide_not]
  rw [verify_checked, rows, wrong, verify]
  cases (List.range m).all fun i => (List.range m).all fun j => verify_sum m A B i j = C (i * m + j) with
  | false => rfl
  | true => rfl

end Exact

/-- The entries of a slice, one by one and as a list. -/
lemma slice_iff {m : ℕ} {row : List int} {f : ℕ → int} (len : row.length = m) :
    (∀ j < m, row[j]? = some (f j)) ↔
      row.map BitVec.toInt = (List.range m).map fun j => (f j).toInt := by
  have values : ((List.range m).map fun j => (f j).toInt) = ((List.range m).map f).map BitVec.toInt := by
    rw [List.map_map]
    rfl
  rw [values, List.map_inj_right fun _ _ => BitVec.toInt_inj.mp]
  constructor
  · intro each
    refine List.ext_getElem? fun j => ?_
    by_cases lt : j < m
    · rw [each j lt, List.getElem?_map, List.getElem?_range lt]
      rfl
    · rw [List.getElem?_eq_none (by omega), List.getElem?_eq_none (by simpa using lt)]
  · rintro rfl j lt
    rw [List.getElem?_map, List.getElem?_range lt]
    rfl

/-- For matrices of digits whose size fits an `int`, neither function overflows or leaves its arrays, both
return what they return without the checks, and `verify` returns 1 if and only if every row of the array
is the one that `vector_mult` writes. -/
theorem verify_exact (m : ℕ) (A B C : ℕ → int) (fits : m * m ≤ CInt.INT_MAX) (hA : digits m A)
    (hB : digits m B) :
    (∀ row < m, vector_mult_checked m A B row = some ((vector_mult m A B row).map BitVec.toInt)) ∧
    verify_checked m A B C = some (verify m A B C) ∧
    (verify_checked m A B C = some 1 ↔ ∀ i < m, vector_mult_checked m A B i =
      some ((List.range m).map fun j => (C (i * m + j)).toInt)) := by
  refine ⟨fun row hrow => vector_mult_checked_eq fits hA hB hrow, verify_checked_eq fits hA hB, ?_⟩
  rw [verify_checked_eq fits hA hB, Option.some_inj, verify_iff]
  refine forall₂_congr fun i hi => ?_
  rw [vector_mult_checked_eq fits hA hB hi, Option.some_inj]
  exact slice_iff (length_vector_mult m i A B)

/-- The product of a 2 × 2 matrix with itself. -/
theorem verify_exact_two :
    verify_checked 2 one_to_four one_to_four
      (fun a => [7, 10, 15, 22].getD a 0) = some 1 := by
  have digit : digits 2 one_to_four := by
    unfold digits
    decide
  have fits : 2 * 2 ≤ CInt.INT_MAX := by decide
  refine ((verify_exact 2 one_to_four one_to_four _ fits digit digit).2.2).mpr ?_
  decide

end CS519.Ipc
