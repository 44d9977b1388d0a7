import Mathlib.Data.List.Intervals
import Mathlib.Data.List.Nodup
import Mathlib.Tactic

/-!
# Arrays and loops

A matrix lies row after row in an array: the entry in row `i` and column `j` has the index `i * m + j`
(`entry_inj`). A loop is a `flatMap` over the values of its variable; where only one of these counts, the
loop comes down to it (`filter_only`, `flatMap_only`).
-/

namespace CS519
variable {α β : Type*} [DecidableEq α]

/-- Two entries of a matrix with `m` columns have different places in its array. -/
lemma entry_inj {m i j i' j' : ℕ} (hj : j < m) (hj' : j' < m) (e : i * m + j = i' * m + j') :
    i = i' ∧ j = j' := by
  have pos : 0 < m := by omega
  have quot : ∀ a b, b < m → (a * m + b) / m = a := fun a b hb => by
    rw [Nat.mul_comm, Nat.mul_add_div pos, Nat.div_eq_of_lt hb, Nat.add_zero]
  have eq : i = i' := by
    rw [← quot i j hj, ← quot i' j' hj']
    exact congrArg (· / m) e
  subst eq
  exact ⟨rfl, Nat.add_left_cancel e⟩

/-- An entry of the first `n` rows lies below `n * m`. -/
lemma entry_lt {n m i j : ℕ} (hi : i < n) (hj : j < m) : i * m + j < n * m :=
  calc
    i * m + j < i * m + m := Nat.add_lt_add_left hj _
    _ = (i + 1) * m := (Nat.succ_mul i m).symm
    _ ≤ n * m := Nat.mul_le_mul_right m hi

/-- The places of the entries of `n` rows are those below `n * m`. -/
lemma lt_mul_iff_entry {n m a : ℕ} : a < n * m ↔ ∃ i < n, ∃ j < m, a = i * m + j := by
  constructor
  · intro h
    have pos : 0 < m := Nat.pos_of_mul_pos_left (Nat.zero_lt_of_lt h)
    exact ⟨a / m, Nat.div_lt_of_lt_mul (Nat.mul_comm n m ▸ h), a % m, Nat.mod_lt a pos,
      (Nat.div_add_mod' a m).symm⟩
  · rintro ⟨i, hi, j, hj, rfl⟩
    exact entry_lt hi hj

/-- A test that holds of one element of a list without repetitions picks that one. -/
lemma filter_only {l : List α} {j : α} {p : α → Bool} (nodup : l.Nodup) (mem : j ∈ l)
    (only : ∀ x ∈ l, p x ↔ x = j) : l.filter p = [j] := by
  have same : l.filter p = l.filter (· = j) := by
    refine List.filter_congr fun x hx => ?_
    rw [Bool.eq_iff_iff, decide_eq_true_iff]
    exact only x hx
  rw [same, List.filter_eq, List.count_eq_one_of_mem nodup mem]
  rfl

/-- A loop whose body is empty for all values but one. -/
lemma flatMap_only {l : List α} (nodup : l.Nodup) (i : α) (body : List β) :
    l.flatMap (fun x => if x = i then body else []) = if i ∈ l then body else [] := by
  induction l with
  | nil => simp
  | cons x l ih =>
    obtain ⟨new, nodup⟩ := List.nodup_cons.mp nodup
    rw [List.flatMap_cons, ih nodup]
    by_cases e : x = i
    · subst e
      simp [new]
    · simp [e, Ne.symm e]

end CS519
