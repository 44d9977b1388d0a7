import CS519.Arrays
import CS519.Parallel

/-!
# The two phases of `matrix.c`

`transpose_segment` and `multiply_segment` as lists of their accesses to the arrays. Entries are of any
type with an addition and a multiplication; no law is assumed of them, as none holds of `float`.

The tiles of `multiply_segment` visit the values of `k` for one entry of `C` in ascending order, each once
(`visits_entry`), so that the entry becomes the sum from left to right (`exec_multiply_segment`).
-/

namespace CS519.Matmul
open Function

def BLOCK : ℕ := 64

/-- The elements of the four arrays. -/
inductive Loc where
  | A (a : ℕ)
  | B (a : ℕ)
  | B_T (a : ℕ)
  | C (a : ℕ)
deriving DecidableEq, Repr

/-- What a thread keeps between its accesses: the entry to be copied, the factor from `A`, and `sum`. -/
structure Registers (V : Type*) where
  entry : V
  factor : V
  sum : V

/-- Where the tiles of a loop over `BLOCK`s start and end. -/
def tiles (lo hi : ℕ) : List (ℕ × ℕ) :=
  if lo < hi then (lo, if lo + BLOCK < hi then lo + BLOCK else hi) :: tiles (lo + BLOCK) hi else []
termination_by hi - lo
decreasing_by
  unfold BLOCK
  omega

section Segments
variable {V : Type*} (N row_start row_end : ℕ)

/-- The body of the transposition. -/
def transpose_entry (i j : ℕ) : List (Access Loc V (Registers V)) :=
  [.read (.B (i * N + j)) fun v r => { r with entry := v },
    .write (.B_T (j * N + i)) fun r => r.entry]

def transpose_segment : List (Access Loc V (Registers V)) :=
  (List.Ico row_start row_end).flatMap fun i =>
    (List.range N).flatMap fun j => transpose_entry N i j

variable [Add V] [Mul V]

/-- The body of the two innermost loops over rows and columns. -/
def multiply_entry (ii jj k k_end : ℕ) : List (Access Loc V (Registers V)) :=
  .read (.C (ii * N + jj)) (fun v r => { r with sum := v }) ::
    ((List.Ico k k_end).flatMap fun kk =>
      [.read (.A (ii * N + kk)) fun v r => { r with factor := v },
        .read (.B_T (jj * N + kk)) fun v r => { r with sum := r.sum + r.factor * v }]) ++
    [.write (.C (ii * N + jj)) fun r => r.sum]

def multiply_segment : List (Access Loc V (Registers V)) :=
  (tiles row_start row_end).flatMap fun (i, i_end) =>
    (tiles 0 N).flatMap fun (j, j_end) =>
      (tiles 0 N).flatMap fun (k, k_end) =>
        (List.Ico i i_end).flatMap fun ii =>
          (List.Ico j j_end).flatMap fun jj =>
            multiply_entry N ii jj k k_end

end Segments

/-! ## The order of the loops -/

section Loops

/-- An empty range has no tiles. -/
lemma tiles_nil {lo hi : ℕ} (h : hi ≤ lo) : tiles lo hi = [] := by
  rw [tiles, if_neg (not_lt.mpr h)]

/-- A loop of at most `BLOCK` rounds has one tile. -/
lemma tiles_single {lo hi : ℕ} (lt : lo < hi) (le : hi ≤ lo + BLOCK) : tiles lo hi = [(lo, hi)] := by
  rw [tiles, if_pos lt, if_neg (not_lt.mpr le), tiles_nil le]

/-- The tiles of a loop, one after the other, are the values of the untiled loop. -/
lemma tiles_eq_Ico (lo hi : ℕ) : (tiles lo hi).flatMap (fun t => List.Ico t.1 t.2) = List.Ico lo hi := by
  fun_induction tiles lo hi with
  | case1 lo more ih =>
    rw [List.flatMap_cons, ih]
    split
    case isTrue inner => exact List.Ico.append_consecutive (Nat.le_add_right _ _) inner.le
    case isFalse last =>
      rw [List.Ico.eq_nil_of_le (not_lt.mp last), List.append_nil]
  | case2 lo done => rw [List.flatMap_nil, List.Ico.eq_nil_of_le (not_lt.mp done)]

/-- A body that counts for one value of the loop variable, in the untiled loop. -/
lemma ico_only {β : Type*} (lo hi i : ℕ) (body : List β) :
    (List.Ico lo hi).flatMap (fun x => if x = i then body else []) =
      if lo ≤ i ∧ i < hi then body else [] := by
  rw [flatMap_only (List.Ico.nodup lo hi)]
  simp only [List.Ico.mem]

/-- In the tiled loop that value comes up in one tile. -/
lemma tiles_only {β : Type*} (lo hi i : ℕ) (body : List β) :
    (tiles lo hi).flatMap (fun t => if t.1 ≤ i ∧ i < t.2 then body else []) =
      if lo ≤ i ∧ i < hi then body else [] := by
  rw [← ico_only lo hi, ← tiles_eq_Ico, List.flatMap_assoc]
  simp only [ico_only]

/-- A tile lies in its range. -/
lemma mem_tiles {lo hi : ℕ} {t : ℕ × ℕ} (mem : t ∈ tiles lo hi) : lo ≤ t.1 ∧ t.2 ≤ hi := by
  fun_induction tiles lo hi with
  | case1 lo more ih =>
    cases List.mem_cons.mp mem with
    | inl e =>
      subst e
      refine ⟨le_rfl, ?_⟩
      simp only
      split
      · omega
      · exact le_rfl
    | inr mem =>
      obtain ⟨le, le'⟩ := ih mem
      exact ⟨(Nat.le_add_right _ _).trans le, le'⟩
  | case2 lo done => simp at mem

/-- The values of `k` for one entry, in the order in which the six loops come to them. -/
def visits (N row_start row_end i j : ℕ) : List ℕ :=
  (tiles row_start row_end).flatMap fun t =>
    (tiles 0 N).flatMap fun u =>
      (tiles 0 N).flatMap fun v =>
        (List.Ico t.1 t.2).flatMap fun ii =>
          (List.Ico u.1 u.2).flatMap fun jj =>
            if ii = i ∧ jj = j then List.Ico v.1 v.2 else []

/-- They are all values below `N`, in ascending order and each once, for the entries of the rows. -/
theorem visits_entry (N row_start row_end i j : ℕ) :
    visits N row_start row_end i j =
      if row_start ≤ i ∧ i < row_end ∧ j < N then List.range N else [] := by
  have tile : ∀ t u v : ℕ × ℕ,
      ((List.Ico t.1 t.2).flatMap fun ii => (List.Ico u.1 u.2).flatMap fun jj =>
        if ii = i ∧ jj = j then List.Ico v.1 v.2 else []) =
          if (t.1 ≤ i ∧ i < t.2) ∧ (u.1 ≤ j ∧ j < u.2) then List.Ico v.1 v.2 else [] := by
    intro t u v
    have column : ∀ ii, ((List.Ico u.1 u.2).flatMap fun jj =>
        if ii = i ∧ jj = j then List.Ico v.1 v.2 else []) =
          if ii = i then (if u.1 ≤ j ∧ j < u.2 then List.Ico v.1 v.2 else []) else [] := by
      intro ii
      by_cases e : ii = i
      · simp only [e, true_and, if_true, ico_only]
      · simp [e]
    simp only [column, ico_only]
    exact (ite_and ..).symm
  have products : ∀ P : Prop, [Decidable P] →
      ((tiles 0 N).flatMap fun v => if P then List.Ico v.1 v.2 else []) =
        if P then List.range N else [] := by
    intro P _
    by_cases p : P
    · simp only [p, if_true, tiles_eq_Ico, List.Ico.zero_bot]
    · simp [p]
  have columns : ∀ t : ℕ × ℕ,
      ((tiles 0 N).flatMap fun u =>
        if (t.1 ≤ i ∧ i < t.2) ∧ (u.1 ≤ j ∧ j < u.2) then List.range N else []) =
          if t.1 ≤ i ∧ i < t.2 then (if j < N then List.range N else []) else [] := by
    intro t
    by_cases row : t.1 ≤ i ∧ i < t.2
    · simp only [row, true_and, if_true, tiles_only, Nat.zero_le, and_self]
    · simp [row]
  rw [visits]
  simp only [tile, products, columns, tiles_only]
  simp only [← ite_and, and_assoc]

end Loops

/-! ## The transposition -/

section Transpose
variable {V : Type*} {N i j row_start row_end : ℕ}

/-- The entries that a transposition copies, in order. -/
def copied (N row_start row_end : ℕ) : List (ℕ × ℕ) :=
  List.Ico row_start row_end ×ˢ List.range N

/-- The elements that a segment of rows transposes. -/
lemma mem_copied {e : ℕ × ℕ} :
    e ∈ copied N row_start row_end ↔ (row_start ≤ e.1 ∧ e.1 < row_end) ∧ e.2 < N := by
  obtain ⟨i, j⟩ := e
  rw [copied, List.mem_product, List.Ico.mem, List.mem_range]

/-- A segment transposes its elements one after the other. -/
lemma transpose_segment_eq (N row_start row_end : ℕ) :
    transpose_segment (V := V) N row_start row_end =
      (copied N row_start row_end).flatMap fun e => transpose_entry N e.1 e.2 := by
  have pairs : copied N row_start row_end =
      (List.Ico row_start row_end).flatMap fun i => (List.range N).map (Prod.mk i) := rfl
  simp only [pairs, List.flatMap_assoc, List.flatMap_map]
  rfl

/-- A segment reads its rows of `B` and writes their columns of `B_T`. -/
lemma transpose_events {x : Access Loc V (Registers V)} (mem : x ∈ transpose_segment N row_start row_end) :
    ∃ i j, (row_start ≤ i ∧ i < row_end) ∧ j < N ∧
      (x.event = .read (.B (i * N + j)) ∨ x.event = .write (.B_T (j * N + i))) := by
  rw [transpose_segment_eq] at mem
  obtain ⟨e, he, mem⟩ := List.mem_flatMap.mp mem
  obtain ⟨rows, column⟩ := mem_copied.mp he
  refine ⟨e.1, e.2, rows, column, ?_⟩
  cases List.mem_cons.mp mem with
  | inl e => exact .inl (e ▸ rfl)
  | inr mem => exact .inr (List.mem_singleton.mp mem ▸ rfl)

/-- Each entry is written to its place in `B_T` once. -/
lemma transpose_writes (rows : row_end ≤ N) (hi : i < N) (hj : j < N) :
    (transpose_segment (V := V) N row_start row_end).filter (·.event = .write (.B_T (j * N + i))) =
      if row_start ≤ i ∧ i < row_end then [.write (.B_T (j * N + i)) fun r => r.entry] else [] := by
  have nodup : (copied N row_start row_end).Nodup :=
    (List.Ico.nodup row_start row_end).product List.nodup_range
  have one : ∀ e ∈ copied N row_start row_end,
      (transpose_entry (V := V) N e.1 e.2).filter (·.event = .write (.B_T (j * N + i))) =
        if e = (i, j) then [.write (.B_T (j * N + i)) fun r => r.entry] else [] := by
    intro e he
    have lt : e.1 < N := (mem_copied.mp he).1.2.trans_le rows
    by_cases same : e = (i, j)
    · subst same
      simp [transpose_entry, Access.event]
    · have other : e.2 * N + e.1 ≠ j * N + i := by
        intro eq
        obtain ⟨col, row⟩ := entry_inj lt hi eq
        exact same (Prod.ext row col)
      simp [transpose_entry, Access.event, other, same]
  rw [transpose_segment_eq, List.filter_flatMap, List.flatMap_congr one, flatMap_only nodup]
  simp only [mem_copied, hj, and_true]

/-- A transposition copies the entries of `B` to their places in `B_T`. -/
lemma exec_transpose_entries (es : List (ℕ × ℕ)) (rows : ∀ e ∈ es, e.1 < N) (hi : i < N)
    (s : (Loc → V) × Registers V) :
    (Access.exec s (es.flatMap fun e => transpose_entry N e.1 e.2)).1 (.B_T (j * N + i)) =
      if (i, j) ∈ es then s.1 (.B (i * N + j)) else s.1 (.B_T (j * N + i)) := by
  induction es generalizing s with
  | nil => rfl
  | cons e es ih =>
    obtain ⟨first, rest⟩ := List.forall_mem_cons.mp rows
    rw [List.flatMap_cons, Access.exec, run_append, ih rest]
    simp only [transpose_entry, run_cons, run_nil, Access.apply]
    by_cases later : (i, j) ∈ es
    · simp [later]
    · by_cases same : e = (i, j)
      · subst same
        simp [later]
      · have other : j * N + i ≠ e.2 * N + e.1 := by
          intro eq
          obtain ⟨col, row⟩ := entry_inj hi first eq
          exact same (Prod.ext row.symm col.symm)
        simp [later, other, Ne.symm same]

/-- A segment of rows leaves its columns in `B_T`, and the others as they were. -/
theorem exec_transpose_segment (rows : row_end ≤ N) (hi : i < N) (hj : j < N)
    (s : (Loc → V) × Registers V) :
    (Access.exec s (transpose_segment N row_start row_end)).1 (.B_T (j * N + i)) =
      if row_start ≤ i ∧ i < row_end then s.1 (.B (i * N + j)) else s.1 (.B_T (j * N + i)) := by
  rw [transpose_segment_eq, exec_transpose_entries _ (fun e he => (mem_copied.mp he).1.2.trans_le rows) hi]
  simp only [mem_copied, hj, and_true]

/-- A transposition of all rows writes no element of `B_T` but those of the entries, and no element of the
other arrays. -/
lemma transpose_frame {a : Loc} (other : ∀ b, a = .B_T b → N * N ≤ b) (m : (Loc → V) × Registers V) :
    (Access.exec m (transpose_segment N 0 N)).1 a = m.1 a := by
  refine Access.exec_frame (fun x mem w => ?_) m
  obtain ⟨i, j, row, column, e | e⟩ := transpose_events mem
  · simp [e] at w
  · have lt : j * N + i < N * N := entry_lt column row.2
    exact absurd lt (not_lt.mpr (other _ (AccessEvent.write.inj (w.symm.trans e))))

end Transpose

/-! ## The multiplication -/

section Multiply
variable {V : Type*} [Add V] [Mul V] {N i j row_start row_end : ℕ}

/-- The sum over some values of `k`, from left to right. -/
def accumulate (mem : Loc → V) (N i j : ℕ) (ks : List ℕ) (sum : V) : V :=
  ks.foldl (fun sum k => sum + mem (.A (i * N + k)) * mem (.B_T (j * N + k))) sum

/-- The innermost loop changes the register only. -/
lemma exec_products (ks : List ℕ) (s : (Loc → V) × Registers V) :
    let after := Access.exec s (ks.flatMap fun k =>
      [.read (.A (i * N + k)) fun v r => { r with factor := v },
        .read (.B_T (j * N + k)) fun v r => { r with sum := r.sum + r.factor * v }])
    after.1 = s.1 ∧ after.2.sum = accumulate s.1 N i j ks s.2.sum := by
  induction ks generalizing s with
  | nil => exact ⟨rfl, rfl⟩
  | cons k ks ih => exact ih _

/-- One body of the loops adds some products to its entry. -/
lemma exec_multiply_entry (k k_end : ℕ) (s : (Loc → V) × Registers V) :
    (Access.exec s (multiply_entry N i j k k_end)).1 =
      update s.1 (.C (i * N + j)) (accumulate s.1 N i j (List.Ico k k_end) (s.1 (.C (i * N + j)))) := by
  obtain ⟨mem, sum⟩ := exec_products (N := N) (i := i) (j := j) (List.Ico k k_end)
    (s.1, { s.2 with sum := s.1 (.C (i * N + j)) })
  rw [multiply_entry, Access.exec, List.cons_append, run_cons, run_append, Access.apply, run_cons, run_nil,
    Access.apply, mem, sum]

/-- What a program adds to an entry of `C`, and that it leaves the factors alone. -/
def Adds (N i j : ℕ) (p : List (Access Loc V (Registers V))) (ks : List ℕ) : Prop :=
  ∀ s, (∀ a, (Access.exec s p).1 (.A a) = s.1 (.A a)) ∧
    (∀ a, (Access.exec s p).1 (.B_T a) = s.1 (.B_T a)) ∧
      (Access.exec s p).1 (.C (i * N + j)) = accumulate s.1 N i j ks (s.1 (.C (i * N + j)))

/-- Two parts that add to an entry. -/
lemma Adds.append {p q : List (Access Loc V (Registers V))} {ks ls : List ℕ} (hp : Adds N i j p ks)
    (hq : Adds N i j q ls) : Adds N i j (p ++ q) (ks ++ ls) := by
  intro s
  obtain ⟨a, b, c⟩ := hp s
  obtain ⟨a', b', c'⟩ := hq (Access.exec s p)
  rw [Access.exec, run_append]
  refine ⟨fun x => (a' x).trans (a x), fun x => (b' x).trans (b x), c'.trans ?_⟩
  simp only [accumulate, a, b, c, List.foldl_append]

/-- A loop adds what its bodies add, in order. -/
lemma Adds.flatMap {κ : Type*} {xs : List κ} {p : κ → List (Access Loc V (Registers V))}
    {ks : κ → List ℕ} (h : ∀ x ∈ xs, Adds N i j (p x) (ks x)) :
    Adds N i j (xs.flatMap p) (xs.flatMap ks) := by
  induction xs with
  | nil => exact fun s => ⟨fun _ => rfl, fun _ => rfl, rfl⟩
  | cons x xs ih =>
    obtain ⟨first, rest⟩ := List.forall_mem_cons.mp h
    exact first.append (ih rest)

/-- The inner loop adds the products of its range to its entry. -/
lemma adds_multiply_entry {ii jj : ℕ} (hj : j < N) (hjj : jj < N) (k k_end : ℕ) :
    Adds (V := V) N i j (multiply_entry N ii jj k k_end)
      (if ii = i ∧ jj = j then List.Ico k k_end else []) := by
  intro s
  rw [exec_multiply_entry]
  refine ⟨fun a => by simp, fun a => by simp, ?_⟩
  split
  case isTrue same =>
    obtain ⟨rfl, rfl⟩ := same
    rw [update_self]
  case isFalse other =>
    refine update_of_ne (fun e => other ?_) _ _
    obtain ⟨rfl, rfl⟩ := entry_inj hj hjj (Loc.C.inj e)
    exact ⟨rfl, rfl⟩

/-- The tiles add to every entry of their rows all products, from left to right, and to no other entry. -/
theorem exec_multiply_segment (hj : j < N) (s : (Loc → V) × Registers V) :
    (Access.exec s (multiply_segment N row_start row_end)).1 (.C (i * N + j)) =
      if row_start ≤ i ∧ i < row_end then
        accumulate s.1 N i j (List.range N) (s.1 (.C (i * N + j)))
      else s.1 (.C (i * N + j)) := by
  have adds : Adds (V := V) N i j (multiply_segment N row_start row_end)
      (visits N row_start row_end i j) := by
    refine .flatMap fun t _ => .flatMap fun u hu => .flatMap fun v _ => .flatMap fun ii _ => .flatMap ?_
    intro jj hjj
    have lt : jj < N := (List.Ico.mem.mp hjj).2.trans_le (mem_tiles hu).2
    exact adds_multiply_entry hj lt v.1 v.2
  rw [(adds s).2.2, visits_entry]
  simp only [hj, and_true]
  split <;> rfl

/-- A segment reads and writes its rows of `C`, and reads the other matrices. -/
lemma multiply_events {x : Access Loc V (Registers V)} (mem : x ∈ multiply_segment N row_start row_end) :
    ∃ i j, (row_start ≤ i ∧ i < row_end) ∧ j < N ∧
      (x.event = .read (.C (i * N + j)) ∨ x.event = .write (.C (i * N + j)) ∨
        ∃ a, x.event = .read (.A a) ∨ x.event = .read (.B_T a)) := by
  obtain ⟨t, ht, mem⟩ := List.mem_flatMap.mp mem
  obtain ⟨u, hu, mem⟩ := List.mem_flatMap.mp mem
  obtain ⟨v, _, mem⟩ := List.mem_flatMap.mp mem
  obtain ⟨ii, hii, mem⟩ := List.mem_flatMap.mp mem
  obtain ⟨jj, hjj, mem⟩ := List.mem_flatMap.mp mem
  have row := List.Ico.mem.mp hii
  have column := List.Ico.mem.mp hjj
  have outer := mem_tiles ht
  refine ⟨ii, jj, ⟨outer.1.trans row.1, row.2.trans_le outer.2⟩, column.2.trans_le (mem_tiles hu).2, ?_⟩
  simp only [multiply_entry, List.mem_append, List.mem_cons, List.mem_flatMap, List.not_mem_nil,
    or_false] at mem
  rcases mem with (rfl | ⟨kk, _, rfl | rfl⟩) | rfl
  · exact .inl rfl
  · exact .inr (.inr ⟨_, .inl rfl⟩)
  · exact .inr (.inr ⟨_, .inr rfl⟩)
  · exact .inr (.inl rfl)

/-- A value of the untiled loop lies in one of the tiles. -/
lemma exists_tile {lo hi x : ℕ} (le : lo ≤ x) (lt : x < hi) :
    ∃ t ∈ tiles lo hi, x ∈ List.Ico t.1 t.2 := by
  have mem : x ∈ List.Ico lo hi := List.Ico.mem.mpr ⟨le, lt⟩
  rw [← tiles_eq_Ico] at mem
  exact List.mem_flatMap.mp mem

/-- The multiplication stores every entry of its rows. -/
lemma multiply_stores (row : row_start ≤ i ∧ i < row_end) (hj : j < N) :
    ∃ x ∈ multiply_segment (V := V) N row_start row_end, x.event = .write (.C (i * N + j)) := by
  obtain ⟨t, ht, hi⟩ := exists_tile row.1 row.2
  obtain ⟨u, hu, hj'⟩ := exists_tile (Nat.zero_le j) hj
  obtain ⟨v, hv, _⟩ := exists_tile (Nat.zero_le j) hj
  refine ⟨.write (.C (i * N + j)) fun r => r.sum, ?_, rfl⟩
  refine List.mem_flatMap.mpr ⟨t, ht, List.mem_flatMap.mpr ⟨u, hu, List.mem_flatMap.mpr ⟨v, hv, ?_⟩⟩⟩
  refine List.mem_flatMap.mpr ⟨i, hi, List.mem_flatMap.mpr ⟨j, hj', ?_⟩⟩
  simp [multiply_entry]

end Multiply

end CS519.Matmul
