import Mathlib.Algebra.BigOperators.Group.Finset.Basic
import Mathlib.Algebra.Order.BigOperators.Group.Finset
import Mathlib.Tactic

/-!
# Checked `int` arithmetic

An `int` operation of C has a defined result only if the exact one fits 32 bits. Here it returns `none`
otherwise, and so does an access outside its array: a computation that returns a value has overflowed
nowhere and has stayed inside its arrays. The loops of such computations return exactly if all their
rounds do (`forM_eq_some`, `mapM_eq_some`, `anyM_eq_some`, `foldlM_add`).
-/

namespace CS519.CInt

def INT_MAX : ℕ := 2 ^ 31 - 1

/-- The value of an `int` expression whose exact value is `x`. -/
def value (x : ℤ) : Option ℤ := if -2 ^ 31 ≤ x ∧ x < 2 ^ 31 then some x else none

def add (a b : ℤ) : Option ℤ := value (a + b)

def mul (a b : ℤ) : Option ℤ := value (a * b)

/-- The index `i * m + j`, which must lie in an array of `size` elements. -/
def index (size : ℕ) (i m j : ℤ) : Option ℕ := do
  let a ← add (← mul i m) j
  if 0 ≤ a ∧ a < size then some a.toNat else none

section Arithmetic
variable {x a b : ℤ} {size i m j : ℕ}

/-- A value that fits an `int` is defined. -/
lemma value_eq (lo : -2 ^ 31 ≤ x) (hi : x < 2 ^ 31) : value x = some x := if_pos ⟨lo, hi⟩

/-- A value beyond the range is not. -/
lemma value_none (hi : 2 ^ 31 ≤ x) : value x = none := if_neg fun h => absurd h.2 (not_lt.mpr hi)

/-- The sides of the squares whose area fits an `int`. -/
lemma square_fits_iff {m : ℕ} : m * m ≤ INT_MAX ↔ m ≤ 46340 := by
  unfold INT_MAX
  constructor
  · intro fits
    by_contra large
    have := Nat.mul_le_mul (not_le.mp large) (not_le.mp large)
    omega
  · intro small
    have := Nat.mul_le_mul small small
    omega

/-- A sum of numbers that are not negative. -/
lemma add_nat (h : i + j ≤ INT_MAX) : add i j = some ((i + j : ℕ) : ℤ) := by
  unfold INT_MAX at h
  exact value_eq (by omega) (by omega)

/-- An index that fits and lies in the array. -/
lemma index_eq (fits : i * m + j ≤ INT_MAX) (lt : i * m + j < size) :
    index size i m j = some (i * m + j) := by
  unfold INT_MAX at fits
  have product : mul i m = some ((i * m : ℕ) : ℤ) := by
    rw [mul, ← Nat.cast_mul]
    exact value_eq (by omega) (by omega)
  have sum : add ((i * m : ℕ) : ℤ) j = some ((i * m + j : ℕ) : ℤ) := add_nat (by unfold INT_MAX; omega)
  have inside : (0 : ℤ) ≤ ((i * m + j : ℕ) : ℤ) ∧ ((i * m + j : ℕ) : ℤ) < size := by omega
  rw [index, product, Option.bind_eq_bind, Option.bind_some, sum, Option.bind_some, if_pos inside,
    Int.toNat_natCast]

/-- An index that does not fit. -/
lemma index_none (h : INT_MAX < i * m + j) : index size i m j = none := by
  unfold INT_MAX at h
  by_cases product : i * m < 2 ^ 31
  · have fits : mul i m = some ((i * m : ℕ) : ℤ) := by
      rw [mul, ← Nat.cast_mul]
      exact value_eq (by omega) (by omega)
    have sum : add ((i * m : ℕ) : ℤ) j = none := value_none (by omega)
    rw [index, fits, Option.bind_eq_bind, Option.bind_some, sum, Option.bind_none]
  · have overflows : mul i m = none := by
      rw [mul, ← Nat.cast_mul]
      exact value_none (by omega)
    rw [index, overflows, Option.bind_eq_bind, Option.bind_none]

end Arithmetic

section Loops
variable {α β : Type}

/-- A loop without a result ends if no round fails. -/
lemma forM_eq_some {f : α → Option Unit} {l : List α} :
    l.forM f = some () ↔ ∀ x ∈ l, f x = some () := by
  induction l with
  | nil => simp
  | cons x l ih =>
    rw [List.forM_eq_forM, List.forM_cons, Option.bind_eq_bind, Option.bind_eq_some_iff,
      List.forall_mem_cons, ← ih]
    exact ⟨fun ⟨(), head, tail⟩ => ⟨head, tail⟩, fun ⟨head, tail⟩ => ⟨(), head, tail⟩⟩

/-- A loop that fills an array. -/
lemma mapM_eq_some {f : α → Option β} {g : α → β} {l : List α} (h : ∀ x ∈ l, f x = some (g x)) :
    l.mapM f = some (l.map g) := by
  induction l with
  | nil => rfl
  | cons x l ih =>
    obtain ⟨head, tail⟩ := List.forall_mem_cons.mp h
    rw [List.mapM_cons, head, ih tail]
    rfl

/-- A loop that is left at the first hit. -/
lemma anyM_eq_some {f : α → Option Bool} {g : α → Bool} {l : List α} (h : ∀ x ∈ l, f x = some (g x)) :
    l.anyM f = some (l.any g) := by
  induction l with
  | nil => rfl
  | cons x l ih =>
    obtain ⟨head, tail⟩ := List.forall_mem_cons.mp h
    rw [List.anyM, head, Option.bind_eq_bind, Option.bind_some, List.any_cons]
    cases g x with
    | true => rfl
    | false => exact ih tail

/-- A loop that adds up numbers which are not negative: if the rounds times a bound fit, every partial sum
does. -/
lemma foldlM_add {f : ℤ → ℕ → Option ℤ} {summand : ℕ → ℤ} {bound n : ℕ}
    (round : ∀ k < n, ∀ sum, f sum k = add sum (summand k))
    (range : ∀ k < n, 0 ≤ summand k ∧ summand k ≤ bound) (fits : n * bound ≤ INT_MAX) :
    (List.range n).foldlM f 0 = some (∑ k ∈ Finset.range n, summand k) := by
  induction n with
  | zero => rfl
  | succ n ih =>
    have earlier : ∀ k < n, k < n + 1 := fun k lt => Nat.lt_succ_of_lt lt
    have lo : 0 ≤ ∑ k ∈ Finset.range (n + 1), summand k :=
      Finset.sum_nonneg fun k mem => (range k (Finset.mem_range.mp mem)).1
    have hi : ∑ k ∈ Finset.range (n + 1), summand k ≤ (n + 1) * bound := by
      refine (Finset.sum_le_card_nsmul _ _ (bound : ℤ) fun k mem =>
        (range k (Finset.mem_range.mp mem)).2).trans ?_
      simp
    have total : ((n + 1 : ℕ) : ℤ) * bound ≤ INT_MAX := by exact_mod_cast fits
    unfold INT_MAX at total
    have le : n * bound ≤ INT_MAX := (Nat.mul_le_mul_right bound n.le_succ).trans fits
    rw [List.range_succ, List.foldlM_append, ih (fun k lt => round k (earlier k lt))
      (fun k lt => range k (earlier k lt)) le, Option.bind_eq_bind, Option.bind_some, List.foldlM_cons,
      round n n.lt_succ_self, add, ← Finset.sum_range_succ]
    rw [value_eq (by omega) (by push_cast at total; omega)]
    rfl

end Loops

end CS519.CInt
