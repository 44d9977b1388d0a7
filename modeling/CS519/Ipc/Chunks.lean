import CS519.CInt
import CS519.Ipc.Product

/-!
# The bytes of a row

How `IPC-pipe.c` sends a row: its `int`s as bytes, in chunks of at most `PIPE_BUF`, and how the parent
puts the chunks back into its buffer. Both sides run the same loop (`write_chunks`, `read_chunks`); its
chunks follow each other without a gap from the first byte to the last one (`Tiles`), so whatever the
buffer held before, it holds the row afterwards (`fill_chunks`).
-/

namespace CS519.Ipc
open CInt (INT_MAX)

abbrev byte := BitVec 8

def PIPE_BUF : ℕ := 4096

/-! ## The chunks -/

/-- The index `m-(m-(k/sizeof(int)))`, evaluated in `size_t`. -/
def last_element (m k : ℕ) : ℕ :=
  (BitVec.ofNat 64 m - (BitVec.ofNat 64 m - BitVec.ofNat 64 (k / 4))).toNat

/-- Offset and length, in bytes, of the chunks from `k` on: the loop over `k` and the last chunk after
it. -/
def chunk_loop (m k : ℕ) : List (ℕ × ℕ) :=
  if k + PIPE_BUF < m * 4 then (k / 4 * 4, PIPE_BUF) :: chunk_loop m (k + PIPE_BUF)
  else [(last_element m k * 4, m * 4 - k)]
termination_by m * 4 - k
decreasing_by
  unfold PIPE_BUF at *
  omega

/-- The chunks that a child writes. -/
def write_chunks (m : ℕ) : List (ℕ × ℕ) :=
  if m * 4 < PIPE_BUF then [(0, m * 4)] else chunk_loop m 0

/-- The chunks that the parent reads. -/
def read_chunks (m : ℕ) : List (ℕ × ℕ) :=
  if m * 4 < PIPE_BUF then [(0, m * 4)] else chunk_loop m 0

/-- The chunks follow each other from `a` to `b`, and each can be written in one step. -/
inductive Tiles (b : ℕ) : ℕ → List (ℕ × ℕ) → Prop where
  | nil : Tiles b b []
  | cons {a length : ℕ} {cs : List (ℕ × ℕ)} :
    1 ≤ length → length ≤ PIPE_BUF → Tiles b (a + length) cs → Tiles b a ((a, length) :: cs)

/-- A message of the pipe may have a byte. -/
lemma PIPE_BUF_pos : 1 ≤ PIPE_BUF := by
  unfold PIPE_BUF
  omega

/-- The index of the last chunk, which is computed modulo `2 ^ 64`, is the plain quotient. -/
lemma last_element_eq {m k : ℕ} (h : k / 4 < 2 ^ 64) : last_element m k = k / 4 := by
  unfold last_element
  bv_omega

/-- The last chunk ends where the row ends. -/
lemma Tiles.last {a b : ℕ} (lt : a < b) (small : b - a ≤ PIPE_BUF) : Tiles b a [(a, b - a)] := by
  refine .cons (by omega) small ?_
  rw [Nat.add_sub_cancel' lt.le]
  exact .nil

/-- The chunks from `k` on follow each other to the end of the row. -/
lemma tiles_chunk_loop {m k : ℕ} (int_m : m ≤ INT_MAX) (aligned : 4 ∣ k) (lt : k < m * 4) :
    Tiles (m * 4) k (chunk_loop m k) := by
  unfold INT_MAX at int_m
  fun_induction chunk_loop m k with
  | case1 k more ih =>
    have next : 4 ∣ k + PIPE_BUF := Nat.dvd_add aligned ⟨1024, rfl⟩
    rw [Nat.div_mul_cancel aligned]
    exact .cons PIPE_BUF_pos le_rfl (ih next more)
  | case2 k last =>
    rw [last_element_eq (by omega), Nat.div_mul_cancel aligned]
    exact .last lt (by omega)

/-- The chunks of a row follow each other from its first byte to its last one. -/
lemma tiles_write_chunks {m : ℕ} (int_m : m ≤ INT_MAX) (pos : 0 < m) :
    Tiles (m * 4) 0 (write_chunks m) := by
  unfold write_chunks
  split
  · exact .last (by omega) (by omega)
  · exact tiles_chunk_loop int_m (Nat.dvd_zero 4) (by omega)

/-- Chunks end no earlier than they start. -/
lemma Tiles.le {a b : ℕ} {cs : List (ℕ × ℕ)} (tiles : Tiles b a cs) : a ≤ b := by
  induction tiles with
  | nil => exact le_rfl
  | cons _ _ _ ih => omega

/-- Every chunk lies in the range. -/
lemma Tiles.mem {a b : ℕ} {cs : List (ℕ × ℕ)} (tiles : Tiles b a cs) {c : ℕ × ℕ} (h : c ∈ cs) :
    1 ≤ c.2 ∧ c.2 ≤ PIPE_BUF ∧ c.1 + c.2 ≤ b := by
  induction tiles with
  | nil => simp at h
  | cons pos small rest ih =>
    cases List.mem_cons.mp h with
    | inl e =>
      subst e
      exact ⟨pos, small, rest.le⟩
    | inr h => exact ih h

/-! ## Buffers -/

section Buffers
variable {data buf : List byte}

/-- The bytes that a chunk takes from a buffer. -/
def slice_of (data : List byte) (c : ℕ × ℕ) : List byte := (data.drop c.1).take c.2

/-- The buffer after bytes were read to an offset. -/
def patch (buf : List byte) (offset : ℕ) (got : List byte) : List byte :=
  buf.take offset ++ got ++ buf.drop (offset + got.length)

/-- The bytes of a chunk that lies in the data. -/
lemma length_slice_of {c : ℕ × ℕ} (h : c.1 + c.2 ≤ data.length) : (slice_of data c).length = c.2 := by
  rw [slice_of, List.length_take, List.length_drop]
  omega

/-- What is read into a buffer does not change its length. -/
@[simp] lemma length_patch {offset : ℕ} {got : List byte} (h : offset + got.length ≤ buf.length) :
    (patch buf offset got).length = buf.length := by
  simp only [patch, List.length_append, List.length_take, List.length_drop]
  omega

/-- Chunks that follow each other fill a part of the buffer with the same part of the data. -/
lemma fill_chunks {a b : ℕ} {cs : List (ℕ × ℕ)} (tiles : Tiles b a cs) (fits : b ≤ data.length)
    (len : buf.length = data.length) :
    cs.foldl (fun buf c => patch buf c.1 (slice_of data c)) buf =
      buf.take a ++ slice_of data (a, b - a) ++ buf.drop b := by
  induction tiles generalizing buf with
  | nil => simp [slice_of]
  | @cons a n cs pos small rest ih =>
    have le := rest.le
    have size : (slice_of data (a, n)).length = n := length_slice_of (by simp only; omega)
    have len' : (patch buf a (slice_of data (a, n))).length = data.length := by
      rw [length_patch (by omega), len]
    have reach : (buf.take a ++ slice_of data (a, n)).length = a + n := by
      rw [List.length_append, List.length_take, size]
      omega
    rw [List.foldl_cons, ih len']
    have front : (patch buf a (slice_of data (a, n))).take (a + n) =
        buf.take a ++ slice_of data (a, n) := by
      rw [patch, List.take_append_of_le_length reach.ge, List.take_of_length_le reach.le]
    have back : (patch buf a (slice_of data (a, n))).drop b = buf.drop b := by
      rw [patch, List.drop_append, reach, List.drop_eq_nil_of_le (by omega), List.nil_append,
        List.drop_drop, size]
      congr 1
      omega
    have middle : slice_of data (a, b - a) =
        slice_of data (a, n) ++ slice_of data (a + n, b - (a + n)) := by
      have parts : b - a = n + (b - (a + n)) := by omega
      simp only [slice_of]
      rw [parts, List.take_add, List.drop_drop]
    rw [front, back, middle]
    simp only [List.append_assoc]

end Buffers

/-! ## Words and bytes -/

section Words

/-- The bytes of an `int` in memory, the least significant one first. -/
def encode (x : int) : List byte :=
  [x.extractLsb' 0 8, x.extractLsb' 8 8, x.extractLsb' 16 8, x.extractLsb' 24 8]

def decode : List byte → int
  | [b0, b1, b2, b3] => b3 ++ b2 ++ b1 ++ b0
  | _ => 0

/-- An `int` has four bytes. -/
@[simp] lemma length_encode (x : int) : (encode x).length = 4 := rfl

/-- The bytes of an `int` give it back. -/
@[simp] lemma decode_encode (x : int) : decode (encode x) = x := by
  rw [encode, decode,
    BitVec.extractLsb'_append_extractLsb'_eq_extractLsb' (show 24 = 16 + 8 from rfl),
    BitVec.extractLsb'_append_extractLsb'_eq_extractLsb' (show 16 = 8 + 8 from rfl),
    BitVec.extractLsb'_append_extractLsb'_eq_extractLsb' (show 8 = 0 + 8 from rfl)]
  exact BitVec.extractLsb'_eq_self

/-- The bytes of a row. -/
def row_bytes (row : List int) : List byte := row.flatMap encode

/-- A buffer of bytes read as `m` elements. -/
def row_of_bytes (m : ℕ) (buf : List byte) : List int :=
  (List.range m).map fun j => decode ((buf.drop (4 * j)).take 4)

/-- A row has four bytes for each element. -/
@[simp] lemma length_row_bytes (row : List int) : (row_bytes row).length = row.length * 4 := by
  simp [row_bytes, List.length_flatMap]

/-- Reading back the bytes of a row gives the row. -/
lemma row_of_row_bytes (row : List int) : row_of_bytes row.length (row_bytes row) = row := by
  induction row with
  | nil => rfl
  | cons x row ih =>
    have skip : ∀ j, (row_bytes (x :: row)).drop (4 * (j + 1)) = (row_bytes row).drop (4 * j) := by
      intro j
      have four : 4 * (j + 1) = (encode x).length + 4 * j := by
        rw [length_encode]
        omega
      rw [row_bytes, List.flatMap_cons, four, ← List.drop_drop, List.drop_left]
      rfl
    rw [row_of_bytes, List.length_cons, List.range_succ_eq_map, List.map_cons, List.map_map]
    refine congrArg₂ List.cons ?_ ?_
    · rw [Nat.mul_zero, List.drop_zero, row_bytes, List.flatMap_cons]
      rw [List.take_append_of_le_length (by simp), List.take_of_length_le (by simp), decode_encode]
    · refine Eq.trans (List.map_congr_left fun j _ => ?_) ih
      rw [Function.comp_apply, Nat.succ_eq_add_one, skip]

end Words

end CS519.Ipc
