import CS519.CInt
import CS519.Ipc.Chunks

/-!
# The loops around `write` and `read`

The two loops of `IPC-pipe.c` in the arithmetic of the source: `k` is an `int` and must not overflow, the
comparisons, the indices and the lengths are computed in `size_t`. For a row of a matrix whose size fits
an `int` they make the chunks of `write_chunks`, so that child and parent agree on every chunk and the
parent gets the row that the child sent (`row_code`).
-/

namespace CS519.Ipc

abbrev size_t := BitVec 64

/-- An `int` converted to `size_t`. -/
def to_size (x : ℤ) : size_t := .ofInt 64 x

/-- The loop over `k` and the access after it: offset and length of each access, in bytes. Ends with nothing
if `k+PIPE_BUF` overflows, or after `fuel` rounds. -/
def access_loop (m : ℤ) : ℕ → ℤ → Option (List (size_t × size_t))
  | 0, _ => none
  | fuel + 1, k => do
    let next ← CInt.add k PIPE_BUF
    if to_size next < to_size m * 4 then
      let rest ← access_loop m fuel next
      return (to_size k / 4 * 4, to_size PIPE_BUF) :: rest
    else
      return [((to_size m - (to_size m - to_size k / 4)) * 4, to_size m * 4 - to_size k)]

/-- The accesses of a child to its row `res`. -/
def child_writes (m : ℕ) : Option (List (size_t × size_t)) :=
  if to_size m * 4 < to_size PIPE_BUF then some [(0, 4 * to_size m)] else access_loop m m 0

/-- The accesses of the parent to `readAns`. -/
def parent_reads (m : ℕ) : Option (List (size_t × size_t)) :=
  if to_size m * 4 < to_size PIPE_BUF then some [(0, 4 * to_size m)] else access_loop m m 0

/-- An access as numbers. -/
def numbers (c : size_t × size_t) : ℕ × ℕ := (c.1.toNat, c.2.toNat)

/-- The bytes that a child writes, one access after the other. -/
def write_row (data : List byte) (cs : List (ℕ × ℕ)) : List byte := cs.flatMap (slice_of data)

/-- The buffer of the parent and what is left in the pipe. -/
def read_row : List (ℕ × ℕ) → List byte → List byte → List byte × List byte
  | [], pipe, buf => (buf, pipe)
  | c :: cs, pipe, buf => read_row cs (pipe.drop c.2) (patch buf c.1 (pipe.take c.2))

section Loop
variable {m k fuel : ℕ}

/-- In `size_t` nothing wraps as long as the row has fewer than 2³¹ bytes. -/
lemma size_values (hm : m * 4 < 2 ^ 31) (hk : k < 2 ^ 31) :
    (to_size m * 4).toNat = m * 4 ∧ (to_size k).toNat = k ∧
      (to_size k / 4 * 4).toNat = k / 4 * 4 ∧ (k ≤ m * 4 → (to_size m * 4 - to_size k).toNat = m * 4 - k) ∧
        ((to_size m - (to_size m - to_size k / 4)) * 4).toNat = k / 4 * 4 := by
  have cast : ∀ x : ℕ, to_size x = BitVec.ofNat 64 x := fun x => BitVec.ofInt_natCast 64 x
  have quotient : BitVec.ofNat 64 k / 4 = BitVec.ofNat 64 (k / 4) := by
    apply BitVec.eq_of_toNat_eq
    have four : (4 : BitVec 64).toNat = 4 := rfl
    rw [BitVec.toNat_udiv, BitVec.toNat_ofNat, BitVec.toNat_ofNat, four]
    omega
  rw [cast, cast, quotient]
  refine ⟨?_, ?_, ?_, fun le => ?_, ?_⟩
  · bv_omega
  · bv_omega
  · bv_omega
  · bv_omega
  · bv_omega

/-- In range the loop makes the chunks of `chunk_loop`. -/
lemma access_loop_eq (small : m * 4 + PIPE_BUF ≤ CInt.INT_MAX) (lt : k < m * 4)
    (enough : m * 4 - k ≤ fuel * PIPE_BUF) :
    ∃ cs, access_loop m fuel k = some cs ∧ cs.map numbers = chunk_loop m k := by
  induction fuel generalizing k with
  | zero => omega
  | succ fuel ih =>
    have fits : m * 4 + PIPE_BUF < 2 ^ 31 := by
      unfold CInt.INT_MAX at small
      omega
    have next : CInt.add k PIPE_BUF = some ((k + PIPE_BUF : ℕ) : ℤ) := CInt.add_nat (by omega)
    obtain ⟨bytes, _, index, rest, last⟩ := size_values (m := m) (k := k) (by omega) (by omega)
    obtain ⟨_, bound, _⟩ := size_values (m := m) (k := k + PIPE_BUF) (by omega) (by omega)
    have compare : to_size ((k + PIPE_BUF : ℕ) : ℤ) < to_size m * 4 ↔ k + PIPE_BUF < m * 4 := by
      rw [BitVec.lt_def, bytes, bound]
    rw [access_loop, next, chunk_loop]
    simp only [Option.bind_eq_bind, Option.bind_some, compare]
    by_cases more : k + PIPE_BUF < m * 4
    · obtain ⟨cs, run, same⟩ := ih more (by rw [Nat.succ_mul] at enough; omega)
      rw [if_pos more, if_pos more, run]
      exact ⟨_, rfl, congrArg₂ List.cons (Prod.ext index rfl) same⟩
    · rw [if_neg more, if_neg more]
      refine ⟨_, rfl, congrArg (fun c => [c]) (Prod.ext ?_ (rest lt.le))⟩
      rw [last_element_eq (by omega)]
      exact last

/-- A matrix whose size fits an `int` has short rows. -/
lemma row_fits (fits : m * m ≤ CInt.INT_MAX) : m * 4 + PIPE_BUF ≤ CInt.INT_MAX := by
  have small := CInt.square_fits_iff.mp fits
  unfold CInt.INT_MAX PIPE_BUF
  omega

/-- The accesses are the chunks of `write_chunks`. -/
lemma child_writes_eq (pos : 1 ≤ m) (fits : m * m ≤ CInt.INT_MAX) :
    ∃ cs, child_writes m = some cs ∧ cs.map numbers = write_chunks m := by
  have small := row_fits fits
  have short : m * 4 + PIPE_BUF < 2 ^ 31 := by
    unfold CInt.INT_MAX at small
    omega
  obtain ⟨bytes, _⟩ := size_values (m := m) (k := 0) (by omega) (by omega)
  have compare : to_size m * 4 < to_size PIPE_BUF ↔ m * 4 < PIPE_BUF := by
    rw [BitVec.lt_def, bytes]
    rfl
  have length : (4 * to_size m).toNat = m * 4 := by rw [mul_comm, bytes]
  rw [child_writes, write_chunks]
  simp only [compare]
  by_cases one : m * 4 < PIPE_BUF
  · rw [if_pos one, if_pos one]
    exact ⟨_, rfl, congrArg (fun c => [c]) (Prod.ext rfl length)⟩
  · rw [if_neg one, if_neg one]
    have enough : m * 4 - 0 ≤ m * PIPE_BUF := Nat.mul_le_mul_left m (by decide)
    exact access_loop_eq (k := 0) small (by omega) enough

end Loop

/-! ## The row on its way -/

section Row
variable {a b : ℕ} {cs : List (ℕ × ℕ)} {data rest buf : List byte}

/-- The chunks hold each byte of the range, and only those. -/
lemma Tiles.covers (tiles : Tiles b a cs) {x : ℕ} :
    (∃ c ∈ cs, c.1 ≤ x ∧ x < c.1 + c.2) ↔ a ≤ x ∧ x < b := by
  induction tiles with
  | nil => simp
  | @cons a n cs pos small rest ih =>
    have le := rest.le
    rw [List.exists_mem_cons_iff, ih]
    omega

/-- A chunk begins where the one before has ended, or later. -/
lemma Tiles.disjoint (tiles : Tiles b a cs) : cs.Pairwise fun c d => c.1 + c.2 ≤ d.1 := by
  have start : ∀ {a cs}, Tiles b a cs → ∀ c ∈ cs, a ≤ c.1 := by
    intro a cs tiles c mem
    induction tiles with
    | nil => simp at mem
    | cons pos small rest ih =>
      cases List.mem_cons.mp mem with
      | inl e => exact e ▸ le_rfl
      | inr mem => exact (Nat.le_add_right _ _).trans (ih mem)
  induction tiles with
  | nil => exact .nil
  | cons pos small rest ih => exact List.pairwise_cons.mpr ⟨start rest, ih⟩

/-- Reading the same pieces that were written fills the buffer with them. -/
lemma read_write (inside : ∀ c ∈ cs, c.1 + c.2 ≤ data.length) :
    read_row cs (write_row data cs ++ rest) buf =
      (cs.foldl (fun buf c => patch buf c.1 (slice_of data c)) buf, rest) := by
  induction cs generalizing buf with
  | nil => rfl
  | cons c cs ih =>
    obtain ⟨first, others⟩ := List.forall_mem_cons.mp inside
    have len := length_slice_of first
    rw [write_row, List.flatMap_cons, List.append_assoc, read_row, List.foldl_cons,
      List.take_append_of_le_length len.ge, List.take_of_length_le len.le,
      List.drop_append_of_le_length len.ge, List.drop_of_length_le len.le, List.nil_append]
    exact ih others

end Row

/-- For every row of a matrix whose size fits an `int`, child and parent make the same accesses without
overflow. Their ranges follow each other from the first byte of the row to the last one, none is empty or
longer than `PIPE_BUF`, and the parent reads the row that the child wrote, and nothing more. -/
theorem row_code (m : ℕ) (pos : 1 ≤ m) (fits : m * m ≤ CInt.INT_MAX) (row : List int)
    (len : row.length = m) (buf rest : List byte) (size : buf.length = m * 4) :
    ∃ cs, child_writes m = some cs ∧ parent_reads m = some cs ∧
      Tiles (m * 4) 0 (cs.map numbers) ∧
      (∀ x, (∃ c ∈ cs.map numbers, c.1 ≤ x ∧ x < c.1 + c.2) ↔ x < m * 4) ∧
      ((cs.map numbers).Pairwise fun c d => c.1 + c.2 ≤ d.1) ∧
      (∀ c ∈ cs.map numbers, 1 ≤ c.2 ∧ c.2 ≤ PIPE_BUF) ∧
      ∃ readAns, read_row (cs.map numbers) (write_row (row_bytes row) (cs.map numbers) ++ rest) buf =
        (readAns, rest) ∧ row_of_bytes m readAns = row := by
  obtain ⟨cs, run, same⟩ := child_writes_eq pos fits
  have small := row_fits fits
  have tiles : Tiles (m * 4) 0 (write_chunks m) :=
    tiles_write_chunks ((Nat.le_mul_self m).trans fits) pos
  have bytes : (row_bytes row).length = m * 4 := by rw [length_row_bytes, len]
  refine ⟨cs, run, run, ?_⟩
  rw [same]
  refine ⟨tiles, fun x => ?_, tiles.disjoint, fun c mem => ?_, _, read_write fun c mem => ?_, ?_⟩
  · rw [tiles.covers]
    exact ⟨And.right, fun lt => ⟨Nat.zero_le x, lt⟩⟩
  · exact ⟨(tiles.mem mem).1, (tiles.mem mem).2.1⟩
  · exact (tiles.mem mem).2.2.trans bytes.ge
  · -- the chunks fill the buffer with the bytes of the row, and these decode to the row
    rw [fill_chunks tiles bytes.ge (size.trans bytes.symm), List.take_zero, List.nil_append,
      List.drop_eq_nil_of_le size.le, List.append_nil, Nat.sub_zero, slice_of, List.drop_zero,
      List.take_of_length_le bytes.le, ← len]
    exact row_of_row_bytes row

/-- A row of two. -/
theorem row_code_two : ∃ cs, child_writes 2 = some cs ∧ ∃ readAns,
    read_row (cs.map numbers) (write_row (row_bytes [7, -1]) (cs.map numbers) ++ [])
      (List.replicate 8 0) = (readAns, []) ∧ row_of_bytes 2 readAns = [7, -1] := by
  obtain ⟨cs, writes, _, _, _, _, _, read⟩ :=
    row_code 2 (by decide) (by decide) [7, -1] rfl (List.replicate 8 0) [] rfl
  exact ⟨cs, writes, read⟩

/-- One element less than `PIPE_BUF` takes one access, and so does `PIPE_BUF` itself; one more takes a
second one. -/
example : child_writes 1023 = some [(0, 4092)] ∧ child_writes 1024 = some [(0, 4096)] ∧
    child_writes 1025 = some [(0, 4096), (4096, 4)] := by
  decide +kernel

/-- At a multiple of `PIPE_BUF` no access is empty. -/
example : child_writes 2048 = some [(0, 4096), (4096, 4096)] := by
  decide +kernel

end CS519.Ipc
