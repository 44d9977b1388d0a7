import Mathlib.Data.List.Range
import Mathlib.Data.List.Nodup
import Mathlib.Tactic

/-!
# Lists that enumerate a range

`Enumerates lo hi l`: the list `l` holds every number from `lo` to `hi` once, in any order. The lemmas
follow the ways in which such lists grow (at either end, or by the enumeration of the next range) and
shrink (by an end of the range that is the first entry).

`Bridged lo l` describes the orders that arise when lists only ever grow and shrink in these ways: where
`i + 1` stands before `i`, the number `i - 1` stands between them. In such an order no entry separates
the smaller numbers from the greater ones (`Bridged.not_split`).
-/

namespace CS519

/-- The list holds each number from `lo` to `hi` once. -/
def Enumerates (lo hi : ℕ) (l : List ℕ) : Prop := l.Perm (List.range' lo (hi + 1 - lo))

namespace Enumerates
variable {lo hi mid : ℕ} {l r : List ℕ}

/-- The members are the numbers of the range. -/
lemma mem (h : Enumerates lo hi l) {x : ℕ} : x ∈ l ↔ lo ≤ x ∧ x ≤ hi := by
  rw [h.mem_iff, List.mem_range'_1]
  omega

/-- Each number of the range occurs once, so their count is that of the range. -/
lemma length (h : Enumerates lo hi l) : l.length = hi + 1 - lo := by
  rw [h.length_eq, List.length_range']

/-- No number occurs twice. -/
lemma nodup (h : Enumerates lo hi l) : l.Nodup := h.nodup_iff.mpr List.nodup_range'

/-- The enumeration of one number. -/
lemma single (p : ℕ) : Enumerates p p [p] := by
  simp [Enumerates]

/-- The next number is added at the back. -/
lemma snoc (h : Enumerates lo hi l) (le : lo ≤ hi + 1) : Enumerates lo (hi + 1) (l ++ [hi + 1]) := by
  have e : hi + 1 + 1 - lo = (hi + 1 - lo) + 1 := by omega
  have last : lo + (hi + 1 - lo) = hi + 1 := by omega
  rw [Enumerates, e, List.range'_1_concat, last]
  exact h.append_right _

/-- The number before is added in front. -/
lemma cons (h : Enumerates (lo + 1) hi l) (le : lo ≤ hi) : Enumerates lo hi (lo :: l) := by
  have e : hi + 1 - lo = (hi + 1 - (lo + 1)) + 1 := by omega
  rw [Enumerates, e, List.range'_succ]
  exact List.Perm.cons lo h

/-- The enumeration of the next range may go in front. -/
lemma append (h : Enumerates lo mid l) (h' : Enumerates (mid + 1) hi r) (le : lo ≤ mid + 1)
    (le' : mid ≤ hi) : Enumerates lo hi (r ++ l) := by
  have e : hi + 1 - lo = (mid + 1 - lo) + (hi + 1 - (mid + 1)) := by omega
  have next : mid + 1 = lo + (mid + 1 - lo) := by omega
  rw [Enumerates, e, ← List.range'_append_1, ← next]
  exact List.perm_append_comm.trans (List.Perm.append h h')

/-- Without its first number, if that heads the list. -/
lemma tail_lo (h : Enumerates lo hi (lo :: l)) : Enumerates (lo + 1) hi l := by
  have le := (h.mem.mp (List.mem_cons_self)).2
  have e : hi + 1 - lo = (hi + 1 - (lo + 1)) + 1 := by omega
  rw [Enumerates, e, List.range'_succ] at h
  exact h.cons_inv

/-- Without its last number, if that heads the list. -/
lemma tail_hi (h : Enumerates lo (hi + 1) ((hi + 1) :: l)) : Enumerates lo hi l := by
  have le := (h.mem.mp (List.mem_cons_self)).1
  have e : hi + 1 + 1 - lo = (hi + 1 - lo) + 1 := by omega
  have last : lo + (hi + 1 - lo) = hi + 1 := by omega
  rw [Enumerates, e, List.range'_1_concat, last] at h
  exact (h.trans List.perm_append_comm).cons_inv

end Enumerates

/-- Where a number stands after its successor, its predecessor stands between the two. -/
def Bridged (lo : ℕ) (l : List ℕ) : Prop :=
  ∀ i, [i + 1, i].Sublist l → lo < i ∧ [i + 1, i - 1, i].Sublist l

namespace Bridged
variable {lo hi mid : ℕ} {l r : List ℕ}

/-- One number has no gap to bridge. -/
lemma single (p : ℕ) : Bridged lo [p] := by
  intro i h
  have := h.length_le
  simp at this

/-- The next number is added at the back. -/
lemma snoc (h : Bridged lo l) (e : Enumerates lo hi l) : Bridged lo (l ++ [hi + 1]) := by
  intro i sub
  obtain ⟨l₁, l₂, split, sub₁, sub₂⟩ := List.sublist_append_iff.mp sub
  rcases List.sublist_singleton.mp sub₂ with rfl | rfl
  · rw [List.append_nil] at split
    obtain ⟨lt, sub'⟩ := h i (split ▸ sub₁)
    exact ⟨lt, sub'.trans (List.sublist_append_left _ _)⟩
  · -- nothing above `hi + 1` stands before it
    obtain ⟨split₁, split₂⟩ :=
      List.append_inj' (show [i + 1] ++ [i] = l₁ ++ [hi + 1] from split) rfl
    have := e.mem.mp (sub₁.subset (split₁ ▸ List.mem_cons_self) : i + 1 ∈ l)
    have : i = hi + 1 := by simpa using split₂
    omega

/-- The number before is added in front. -/
lemma cons (h : Bridged (lo + 1) l) (e : Enumerates (lo + 1) hi l) : Bridged lo (lo :: l) := by
  intro i sub
  cases sub with
  | cons _ sub =>
    obtain ⟨lt, sub'⟩ := h i sub
    exact ⟨by omega, sub'.cons lo⟩
  | cons_cons _ sub =>
    have := e.mem.mp (sub.subset (List.mem_singleton_self i))
    omega

/-- Two lists whose ranges are neighbours, the right one in front. -/
lemma append (h : Bridged lo l) (h' : Bridged (mid + 1) r) (e : Enumerates lo mid l)
    (e' : Enumerates (mid + 1) hi r) (lt : lo < mid) (le : mid < hi)
    (pred : [mid - 1, mid].Sublist l) : Bridged lo (r ++ l) := by
  intro i sub
  obtain ⟨l₁, l₂, split, sub₁, sub₂⟩ := List.sublist_append_iff.mp sub
  match l₁, split with
  | [], split =>
    obtain ⟨lt, sub'⟩ := h i (by simpa [split] using sub₂)
    exact ⟨lt, sub'.trans (List.sublist_append_right _ _)⟩
  | [j], split =>
    obtain ⟨rfl, rfl⟩ : i + 1 = j ∧ [i] = l₂ := by simpa using split
    have hj := e'.mem.mp (sub₁.subset (List.mem_singleton_self _))
    have hi := e.mem.mp (sub₂.subset (List.mem_singleton_self _))
    obtain rfl : i = mid := by omega
    exact ⟨lt, sub₁.append pred⟩
  | [j, k], split =>
    obtain ⟨rfl, rfl, rfl⟩ : i + 1 = j ∧ i = k ∧ [] = l₂ := by simpa using split
    obtain ⟨lt', sub'⟩ := h' i sub₁
    exact ⟨by omega, sub'.trans (List.sublist_append_left _ _)⟩
  | _ :: _ :: _ :: _, split => simp at split

/-- Without the first number, if that heads the list. -/
lemma tail_lo (h : Bridged lo (lo :: l)) (e : Enumerates lo hi (lo :: l)) : Bridged (lo + 1) l := by
  intro i sub
  obtain ⟨lt, sub'⟩ := h i (sub.cons lo)
  have sub'' := List.Sublist.of_cons_of_ne (by omega) sub'
  have ne : i - 1 ≠ lo := by
    intro c
    apply (List.nodup_cons.mp e.nodup).1
    rw [← c]
    exact sub''.subset (by simp)
  exact ⟨by omega, sub''⟩

/-- Without the last number, if that heads the list. -/
lemma tail_hi (h : Bridged lo ((hi + 1) :: l)) (e : Enumerates lo (hi + 1) ((hi + 1) :: l)) :
    Bridged lo l := by
  intro i sub
  obtain ⟨lt, sub'⟩ := h i (sub.cons _)
  refine ⟨lt, List.Sublist.of_cons_of_ne (fun c => ?_) sub'⟩
  apply (List.nodup_cons.mp e.nodup).1
  rw [← c]
  exact sub.subset (by simp)

/-- No entry has its successor before it and its predecessor after it. -/
lemma not_split {i : ℕ} {l₁ l₂ : List ℕ} (h : Bridged lo (l₁ ++ i :: l₂))
    (nodup : (l₁ ++ i :: l₂).Nodup) (succ : i + 1 ∈ l₁) : i - 1 ∉ l₂ := by
  intro pred
  have sub : [i + 1, i].Sublist (l₁ ++ i :: l₂) :=
    (List.singleton_sublist.mpr succ).append (List.singleton_sublist.mpr List.mem_cons_self)
  obtain ⟨lt, sub'⟩ := h i sub
  have before : [i - 1, i].Sublist (l₁ ++ i :: l₂) := (List.sublist_cons_self _ _).trans sub'
  obtain ⟨_, nodup₂, disjoint⟩ := List.nodup_append.mp nodup
  obtain ⟨k₁, k₂, split, sub₁, sub₂⟩ := List.sublist_append_iff.mp before
  match k₁, split with
  | [], split =>
    obtain rfl : [i - 1, i] = k₂ := split
    have mem : i ∈ l₂ := (List.Sublist.of_cons_of_ne (by omega) sub₂).subset (by simp)
    exact (List.nodup_cons.mp nodup₂).1 mem
  | j :: _, split =>
    obtain rfl : i - 1 = j := (List.cons.inj split).1
    have mem : i - 1 ∈ l₁ := sub₁.subset List.mem_cons_self
    exact disjoint _ mem _ (List.mem_cons_of_mem i pred) rfl

end Bridged

end CS519
