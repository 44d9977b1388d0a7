import CS519.Run
import CS519.Ipc.Chunks

/-!
# Children that write to a pipe

The program `IPC-pipe.c`: `m` children, each of which sends one row through a pipe under a semaphore,
and the parent, which reads the rows after it has forked all children. The parent ignores what its reads
return and knows the end of a message by counting only.

A write of at most `PIPE_BUF` bytes blocks until it fits and is one step; a read blocks on an empty pipe
and otherwise takes what is there, up to what was asked for. The parent's buffers take short reads as
they come, so that nothing in the model keeps reader and writer in step.
-/

namespace CS519.Ipc.Pipe
open CInt (INT_MAX)
open Function

/-- A call of a child that other processes can see. -/
inductive Call where
  | semaphore_reserve
  | write (data : List byte)
  | semaphore_release

/-- A child, with the calls that it has yet to make. -/
inductive Child where
  | unborn
  | running (calls : List Call)
  | exited

inductive Buffer where
  | readI
  | readAns
deriving DecidableEq

/-- A `read` of `count` bytes to an offset of a buffer. -/
structure Read where
  buffer : Buffer
  offset : ℕ
  count : ℕ
deriving DecidableEq

/-- The parent: in the fork loop, at the head of the read loop, in a round with some reads to come. -/
inductive Parent where
  | fork (i : ℕ)
  | round (i : ℕ)
  | read (i : ℕ) (todo : List Read)
  | done
deriving DecidableEq

/-- The parent's variables `readI` and `readAns`, in bytes. -/
structure Buffers where
  readI : List byte
  readAns : List byte

structure Sys where
  semaphore : ℕ
  pipe : List byte
  child : ℕ → Child
  parent : Parent
  buffers : Buffers
  C : ℕ → int

inductive Move where
  | parent
  | child (i : ℕ)

/-- What a run shows of the parent: how much a read asked for and got, and the row of a round. -/
inductive Event where
  | read (asked got : ℕ)
  | row (number : int) (values : List int)

/-- What a read that returns `data` does to the buffers. -/
def receive (b : Buffers) (r : Read) (data : List byte) : Buffers :=
  match r.buffer with
  | .readI => { b with readI := patch b.readI r.offset data }
  | .readAns => { b with readAns := patch b.readAns r.offset data }

section System
variable (cap m : ℕ) (A B : ℕ → int)

/-- What a child writes: the number of its row, and the row in chunks. -/
def message (row : ℕ) : List (List byte) :=
  encode (.ofNat 32 row) ::
    (write_chunks m).map (slice_of (row_bytes (vector_mult m A B row)))

def child_calls (row : ℕ) : List Call :=
  .semaphore_reserve :: (message m A B row).map .write ++ [.semaphore_release]

/-- The reads of one round. -/
def parent_reads : List Read :=
  ⟨.readI, 0, 4⟩ :: (read_chunks m).map fun c => ⟨.readAns, c.1, c.2⟩

/-- The loop that copies a row to `C`. -/
def copy_row (C : ℕ → int) (number : int) (values : List int) : ℕ → int :=
  (List.range m).foldl (fun C j => update C (number.toNat * m + j) (values.getD j 0)) C

def parent_step? (s : Sys) : Option Sys :=
  match s.parent with
  | .fork i =>
    if i < m then
      some { s with child := update s.child i (.running (child_calls m A B i)), parent := .fork (i + 1) }
    else some { s with parent := .round 0 }
  | .round i => some { s with parent := if i < m then .read i (parent_reads m) else .done }
  | .read i [] =>
    some { s with
      C := copy_row m s.C (decode s.buffers.readI) (row_of_bytes m s.buffers.readAns)
      parent := .round (i + 1) }
  | .read i (r :: todo) =>
    if s.pipe = [] then none
    else
      some { s with
        pipe := s.pipe.drop r.count
        buffers := receive s.buffers r (s.pipe.take r.count)
        parent := .read i todo }
  | .done => none

def child_step? (s : Sys) (i : ℕ) : Option Sys :=
  match s.child i with
  | .running [] => some { s with child := update s.child i .exited }
  | .running (.semaphore_reserve :: rest) =>
    if s.semaphore = 0 then none
    else some { s with semaphore := s.semaphore - 1, child := update s.child i (.running rest) }
  | .running (.write data :: rest) =>
    if s.pipe.length + data.length ≤ cap then
      some { s with pipe := s.pipe ++ data, child := update s.child i (.running rest) }
    else none
  | .running (.semaphore_release :: rest) =>
    some { s with semaphore := s.semaphore + 1, child := update s.child i (.running rest) }
  | _ => none

/-- The next state, if the process can take a step. -/
def pipe_step? (s : Sys) : Move → Option Sys
  | .parent => parent_step? m A B s
  | .child i => child_step? cap s i

/-- A process that is blocked stays where it is. -/
def pipe_step (s : Sys) (mv : Move) : Sys := (pipe_step? cap m A B s mv).getD s

def pipe_log (s : Sys) : Move → Option Event
  | .parent =>
    match s.parent with
    | .read _ [] => some (.row (decode s.buffers.readI) (row_of_bytes m s.buffers.readAns))
    | .read _ (r :: _) =>
      if s.pipe = [] then none else some (.read r.count (s.pipe.take r.count).length)
    | _ => none
  | .child _ => none

/-- The state when the parent comes to the fork loop. Nothing is known of what its variables hold. -/
def pipe_start (b : Buffers) (C : ℕ → int) : Sys := ⟨1, [], fun _ => .unborn, .fork 0, b, C⟩

end System

/-! ## One message and one round -/

/-- The sizes of `readI` and `readAns`. -/
def Buffers.Sized (m : ℕ) (b : Buffers) : Prop := b.readI.length = 4 ∧ b.readAns.length = m * 4

/-- The buffers after the first reads of a round, with what these returned. -/
def received (m : ℕ) (b : Buffers) (got : List (List byte)) : Buffers :=
  ((parent_reads m).zip got).foldl (fun b rd => receive b rd.1 rd.2) b

section Message
variable {m : ℕ} {A B : ℕ → int} {row : ℕ}

/-- The chunks of a message lie in its row. -/
lemma chunk_fits (int_m : m ≤ INT_MAX) (pos : 0 < m) {c : ℕ × ℕ} (h : c ∈ write_chunks m) :
    (slice_of (row_bytes (vector_mult m A B row)) c).length = c.2 := by
  obtain ⟨_, _, le⟩ := (tiles_write_chunks int_m pos).mem h
  exact length_slice_of (by simpa using le)

/-- A round asks for the lengths that a child writes. -/
lemma message_lengths (int_m : m ≤ INT_MAX) (pos : 0 < m) (A B : ℕ → int) (row : ℕ) :
    (message m A B row).map List.length = (parent_reads m).map Read.count := by
  rw [message, parent_reads, List.map_cons, List.map_cons, List.map_map, List.map_map, length_encode]
  exact congrArg _ (List.map_congr_left fun c hc => chunk_fits int_m pos hc)

/-- A message has as many parts as the parent reads. -/
lemma length_message : (message m A B row).length = (parent_reads m).length := by
  simp only [message, parent_reads, List.length_cons, List.length_map]
  rfl

/-- What a child writes can be written in one step, and is not empty. -/
lemma message_chunk (int_m : m ≤ INT_MAX) (pos : 0 < m) {d : List byte} (h : d ∈ message m A B row) :
    1 ≤ d.length ∧ d.length ≤ PIPE_BUF := by
  cases List.mem_cons.mp h with
  | inl e =>
    subst e
    rw [length_encode]
    decide
  | inr h =>
    obtain ⟨c, hc, rfl⟩ := List.mem_map.mp h
    obtain ⟨lo, hi, _⟩ := (tiles_write_chunks int_m pos).mem hc
    rw [chunk_fits int_m pos hc]
    exact ⟨lo, hi⟩

/-- Before the first read the buffers are as they were. -/
@[simp] lemma received_nil (b : Buffers) : received m b [] = b := by
  simp [received]

/-- One more read. -/
lemma received_snoc {b : Buffers} {got : List (List byte)} {r : Read} {todo : List Read}
    (e : (parent_reads m).drop got.length = r :: todo) (data : List byte) :
    received m b (got ++ [data]) = receive (received m b got) r data := by
  have len : ((parent_reads m).take got.length).length = got.length := by
    have lt : got.length < (parent_reads m).length := by
      rw [← List.drop_eq_nil_iff.not.trans not_le, e]
      simp
    simp [lt.le]
  have parts : parent_reads m = (parent_reads m).take got.length ++ r :: todo := by
    rw [← e, List.take_append_drop]
  rw [received, received, parts]
  generalize (parent_reads m).take got.length = ran at len
  have before : (ran ++ r :: todo).zip got = ran.zip got := by
    have parts : (ran ++ r :: todo).zip (got ++ []) = ran.zip got ++ (r :: todo).zip [] :=
      List.zip_append len
    rwa [List.append_nil, List.zip_nil_right, List.append_nil] at parts
  rw [List.zip_append len, before, List.foldl_append, List.zip_cons_cons, List.zip_nil_right,
    List.foldl_cons, List.foldl_nil]

/-- The chunks of a row change `readAns` only. -/
lemma receive_chunks (data : List byte) (cs : List (ℕ × ℕ)) (b : Buffers) :
    ((cs.map fun c => Read.mk .readAns c.1 c.2).zip (cs.map (slice_of data))).foldl
      (fun b rd => receive b rd.1 rd.2) b =
      { b with readAns := cs.foldl (fun buf c => patch buf c.1 (slice_of data c)) b.readAns } := by
  induction cs generalizing b with
  | nil => rfl
  | cons c cs ih => exact ih _

/-- After a whole message the buffers hold the number and the row. -/
lemma received_message (int_m : m ≤ INT_MAX) (pos : 0 < m) {b : Buffers} (sized : b.Sized m) :
    received m b (message m A B row) =
      ⟨encode (.ofNat 32 row), row_bytes (vector_mult m A B row)⟩ := by
  obtain ⟨lenI, lenAns⟩ := sized
  have size : (row_bytes (vector_mult m A B row)).length = m * 4 := by simp
  have number : patch b.readI 0 (encode (.ofNat 32 row)) = encode (.ofNat 32 row) := by
    rw [patch, List.take_zero, List.nil_append, length_encode, List.drop_eq_nil_of_le lenI.le,
      List.append_nil]
  rw [received, parent_reads, message, List.zip_cons_cons, List.foldl_cons]
  refine (receive_chunks _ (write_chunks m) _).trans ?_
  simp only [receive, number]
  rw [fill_chunks (tiles_write_chunks int_m pos) size.ge (lenAns.trans size.symm), slice_of,
    List.take_zero, List.nil_append, List.drop_zero, Nat.sub_zero, List.take_of_length_le size.le,
    List.drop_eq_nil_of_le lenAns.le, List.append_nil]

/-- The copy changes one row of `C`. -/
lemma copy_row_apply {C : ℕ → int} {number : int} {values : List int} {i j : ℕ} (hj : j < m) :
    copy_row m C number values (i * m + j) =
      if i = number.toNat then values.getD j 0 else C (i * m + j) := by
  have key : ∀ n ≤ m, (List.range n).foldl
      (fun C j => update C (number.toNat * m + j) (values.getD j 0)) C (i * m + j) =
        if i = number.toNat ∧ j < n then values.getD j 0 else C (i * m + j) := by
    intro n
    induction n with
    | zero => simp
    | succ n ih =>
      intro le
      rw [List.range_succ, List.foldl_append, List.foldl_cons, List.foldl_nil]
      by_cases e : i * m + j = number.toNat * m + n
      · obtain ⟨rfl, rfl⟩ := entry_inj hj le e
        rw [e, update_self, if_pos ⟨rfl, Nat.lt_succ_self _⟩]
      · rw [update_of_ne e, ih (Nat.le_of_succ_le le)]
        have other : i = number.toNat → j ≠ n := fun eq eq' => e (by rw [eq, eq'])
        refine if_congr (and_congr_right fun eq => ?_) rfl rfl
        have ne := other eq
        omega
  rw [copy_row, key m le_rfl]
  exact if_congr (and_iff_left hj) rfl rfl

end Message

end CS519.Ipc.Pipe
