import CS519.AppHelper

/-!
# The test of `app_helper`

The program that tests and times the system call: one call whose result it checks, then
`NUM_ITERATIONS` more, then a check of the last one. It prints a message and fails when an allocation or a
call reports an error, or when a byte of its buffer is not 1.

`main_eq` is what it does in every case. Once it has its buffer it fails in none: it succeeds, or a call
runs out of kernel memory and the process is killed in the kernel. When it succeeds, every one of its
calls has left a kernel buffer behind.
-/

namespace CS519.AppHelper
open Uaccess

/-- The process of the test, with the kernel buffers that its calls have left behind. -/
structure Process where
  user : UserMem
  leaked : List (List byte)

/-- Code of the test. It fails with a message, and has no result if the process is killed. -/
abbrev Test := ExceptT String (StateT Process Option)

section Test
variable {α β : Type} {x : Test α} {f : α → Test β} {p q : Process}

/-- The program goes on with a value. -/
lemma test_pure (a : α) : (pure a : Test α) p = some (.ok a, p) := rfl

/-- A step that succeeds is followed by the next one. -/
lemma test_bind_ok {a : α} (h : x p = some (.ok a, q)) : (x >>= f) p = f a q := by
  change (x p).bind _ = _
  rw [h]
  rfl

/-- A step that fails ends the program. -/
lemma test_bind_error {e : String} (h : x p = some (.error e, q)) :
    (x >>= f) p = some (.error e, q) := by
  change (x p).bind _ = _
  rw [h]
  rfl

/-- A step in which the program is killed is its last one. -/
lemma test_bind_none (h : x p = none) : (x >>= f) p = none := by
  change (x p).bind _ = _
  rw [h]
  rfl

end Test

/-- The memory that `malloc` returns may be written. -/
structure Allocator where
  alloc : UserMem → BitVec 64 → Option (Addr × UserMem)
  inside : ∀ user size a user', alloc user size = some (a, user') → access_ok a size.toNat
  mapped : ∀ user size a user', alloc user size = some (a, user') →
    ∀ i < size.toNat, writable user' (a + .ofNat 64 i) = true

def DEFAULT_BUF_SIZE : BitVec 64 := 256

def NUM_ITERATIONS : ℕ := 100000

section Functions

/-- Print a message and return `EXIT_FAILURE`. -/
def fail_if (c : Prop) [Decidable c] (message : String) : Test Unit :=
  if c then throw message else pure ()

def malloc (M : Allocator) (size : BitVec 64) : Test Addr := fun p =>
  match M.alloc p.user size with
  | none => some (.error "malloc", p)
  | some (a, user) => some (.ok a, { p with user })

def memset (buffer : Addr) (c : byte) (n : BitVec 64) : Test Unit := fun p =>
  if ∀ i < n.toNat, writable p.user (buffer + .ofNat 64 i) = true then
    some (.ok (), { p with user := overwrite p.user buffer (.replicate n.toNat c) })
  else none

def load (a : Addr) : Test byte := fun p => (p.user a).map fun b => (.ok b.value, p)

/-- The kernel buffers that a call has not freed. -/
def Call.held (s : Call) : List (List byte) := (List.range s.kzallocs).filterMap s.kernel

/-- The size is an `int` in the kernel. -/
def syscall (K : Kernel) (buffer : Addr) (buf_size : BitVec 64) : Test ℤ := fun p =>
  (app_helper K buffer (buf_size.setWidth 32) (.enter p.user)).map fun r =>
    (.ok r.1, ⟨r.2.user, p.leaked ++ r.2.held⟩)

/-- The loops that look for a byte that is not 1, from the index `i` on. -/
def validate (failed : String) (buffer : Addr) : ℕ → ℕ → Test Unit
  | _, 0 => pure ()
  | i, rounds + 1 => do
    let got ← load (buffer + .ofNat 64 i)
    fail_if (got ≠ 1) s!"{failed} at index {i} (expected 1, got {got.toInt})"
    validate failed buffer (i + 1) rounds

/-- The timed loop, from the round `i` on. `K` is what the kernel does in each of the calls. -/
def benchmark (K : ℕ → Kernel) (buffer : Addr) (buf_size : BitVec 64) : ℕ → ℕ → Test Unit
  | _, 0 => pure ()
  | i, rounds + 1 => do
    memset buffer 4 buf_size
    let ret ← syscall (K (i + 1)) buffer buf_size
    fail_if (ret < 0) "syscall app_helper (loop)"
    benchmark K buffer buf_size (i + 1) rounds

/-- The size on the command line, as `atoi` reads it. -/
def buffer_size (argv1 : Option (BitVec 32)) : BitVec 64 :=
  match argv1 with
  | none => DEFAULT_BUF_SIZE
  | some n => if n.signExtend 64 = 0 then DEFAULT_BUF_SIZE else n.signExtend 64

def main (K : ℕ → Kernel) (M : Allocator) (argv1 : Option (BitVec 32)) : Test Unit := do
  let buf_size := buffer_size argv1
  let buffer ← malloc M buf_size
  memset buffer 4 buf_size
  let ret ← syscall (K 0) buffer buf_size
  fail_if (ret < 0) "syscall app_helper (test)"
  validate "Validation failed" buffer 0 buf_size.toNat
  memset buffer 4 buf_size
  benchmark K buffer buf_size 0 NUM_ITERATIONS
  validate "Final validation failed" buffer 0 buf_size.toNat

end Functions

/-! ## What the steps do -/

section Steps
variable {user : UserMem} {buffer : Addr} {size : BitVec 64} {n : ℕ} {c d : byte} {p : Process}

/-- A buffer of the process, no longer than an `int` may be. -/
structure Buffer (user : UserMem) (buffer : Addr) (size : BitVec 64) : Prop where
  positive : 0 < (size.setWidth 32).toInt
  exact : (size.setWidth 32).signExtend 64 = size
  inside : access_ok buffer size.toNat
  mapped : ∀ i < size.toNat, writable user (buffer + .ofNat 64 i) = true

/-- The process after its buffer was filled. -/
def filled (user : UserMem) (buffer : Addr) (size : BitVec 64) (c : byte) (leaked : List (List byte)) :
    Process := ⟨overwrite user buffer (.replicate size.toNat c), leaked⟩

/-- The size of a buffer fits the `int` that the system call takes. -/
lemma Buffer.toNat (buf : Buffer user buffer size) : size.toNat = (size.setWidth 32).toInt.toNat := by
  rw [← toNat_size buf.positive.le, buf.exact]

/-- A buffer that has been filled is still one. -/
lemma Buffer.filled (buf : Buffer user buffer size) (c : byte) :
    Buffer (overwrite user buffer (.replicate size.toNat c)) buffer size :=
  ⟨buf.positive, buf.exact, buf.inside, fun i h => by simpa using buf.mapped i h⟩

/-- A check that does not fail has no effect. -/
lemma fail_if_false {cond : Prop} [Decidable cond] (h : ¬cond) (message : String) :
    fail_if cond message p = some (.ok (), p) := by
  rw [fail_if, if_neg h, test_pure]

/-- To fill a buffer overwrites it. -/
lemma memset_eq (buf : Buffer user buffer size) (c : byte) (leaked : List (List byte)) :
    memset buffer c size ⟨user, leaked⟩ = some (.ok (), filled user buffer size c leaked) :=
  if_pos buf.mapped

/-- To fill a buffer again leaves the last filling. -/
lemma memset_filled (buf : Buffer user buffer size) (c d : byte) (leaked : List (List byte)) :
    memset buffer d size (filled user buffer size c leaked) =
      some (.ok (), filled user buffer size d leaked) := by
  rw [AppHelper.filled, memset_eq (buf.filled c), AppHelper.filled, AppHelper.filled,
    overwrite_overwrite (by simp)]

/-- The call fills the buffer with ones, and leaves a kernel buffer of ones behind. -/
lemma syscall_filled (buf : Buffer user buffer size) (c : byte) (leaked : List (List byte)) {K : Kernel}
    (succeeds : K.kzalloc_succeeds size = true) :
    syscall K buffer size (filled user buffer size c leaked) =
      some (.ok 0, filled user buffer size 1 (leaked ++ [.replicate size.toNat 1])) := by
  have n := buf.toNat
  have all := K.to_user.complete _ buffer _ buf.inside (buf.filled c).mapped
  have done := app_helper_done K (overwrite user buffer (.replicate size.toNat c)) buffer buf.positive
    (by rw [buf.exact, succeeds])
  rw [← n, all, Nat.sub_zero, overwrite_overwrite (by simp)] at done
  rw [syscall, filled, done]
  rfl

/-- Without memory in the kernel the process is killed. -/
lemma syscall_none (buf : Buffer user buffer size) {K : Kernel} (fails : K.kzalloc_succeeds size = false) :
    syscall K buffer size p = none := by
  rw [syscall, app_helper_null K p.user buffer buf.positive (by rw [buf.exact, fails])]
  rfl

/-- A buffer of ones passes. -/
lemma validate_filled (buf : Buffer user buffer size) (failed : String) (leaked : List (List byte))
    {i rounds : ℕ} (le : i + rounds ≤ size.toNat) :
    validate failed buffer i rounds (filled user buffer size 1 leaked) =
      some (.ok (), filled user buffer size 1 leaked) := by
  induction rounds generalizing i with
  | zero => rfl
  | succ rounds ih =>
    have small : i < 2 ^ 64 := by
      have := size.isLt
      omega
    have offset : (buffer + .ofNat 64 i - buffer).toNat < size.toNat := by bv_omega
    obtain ⟨b, byte⟩ : ∃ b, user (buffer + .ofNat 64 i) = some b := by
      have ok := buf.mapped i (by omega)
      rw [writable] at ok
      cases e : user (buffer + .ofNat 64 i) with
      | none => simp [e] at ok
      | some b => exact ⟨b, rfl⟩
    have one : load (buffer + .ofNat 64 i) (filled user buffer size 1 leaked) =
        some (.ok 1, filled user buffer size 1 leaked) := by
      simp [load, filled, overwrite_replicate offset, byte]
    rw [validate, test_bind_ok one, test_bind_ok (fail_if_false (by simp) _)]
    exact ih (by omega)

/-- A round of the timed loop. -/
lemma benchmark_succ (buf : Buffer user buffer size) (c : byte) (leaked : List (List byte))
    {K : ℕ → Kernel} {i rounds : ℕ} (succeeds : (K (i + 1)).kzalloc_succeeds size = true) :
    benchmark K buffer size i (rounds + 1) (filled user buffer size c leaked) =
      benchmark K buffer size (i + 1) rounds
        (filled user buffer size 1 (leaked ++ [.replicate size.toNat 1])) := by
  rw [benchmark, test_bind_ok (memset_filled buf c 4 leaked),
    test_bind_ok (syscall_filled buf 4 leaked succeeds), test_bind_ok (fail_if_false (by decide) _)]

/-- The calls of the loop, where every one gets its memory: each leaves a kernel buffer of ones behind. -/
lemma benchmark_filled (buf : Buffer user buffer size) (c : byte) (leaked : List (List byte))
    {K : ℕ → Kernel} {i rounds : ℕ}
    (succeeds : ∀ j, i < j → j ≤ i + (rounds + 1) → (K j).kzalloc_succeeds size = true) :
    benchmark K buffer size i (rounds + 1) (filled user buffer size c leaked) =
      some (.ok (), filled user buffer size 1
        (leaked ++ .replicate (rounds + 1) (.replicate size.toNat 1))) := by
  rw [benchmark_succ buf c leaked (succeeds (i + 1) (by omega) (by omega))]
  induction rounds generalizing i c leaked with
  | zero => rfl
  | succ rounds ih =>
    rw [benchmark_succ buf 1 _ (succeeds (i + 1 + 1) (by omega) (by omega)),
      ih 1 _ fun j lt le => succeeds j (by omega) (by omega), List.append_assoc,
      List.replicate_succ (n := rounds + 1)]
    rfl

/-- The first call that gets no memory kills the process. -/
lemma benchmark_none (buf : Buffer user buffer size) (c : byte) (leaked : List (List byte))
    {K : ℕ → Kernel} {i rounds j : ℕ} (lt : i < j) (le : j ≤ i + rounds)
    (fails : (K j).kzalloc_succeeds size = false) :
    benchmark K buffer size i rounds (filled user buffer size c leaked) = none := by
  induction rounds generalizing i c leaked with
  | zero => omega
  | succ rounds ih =>
    cases succeeds : (K (i + 1)).kzalloc_succeeds size with
    | true =>
      have later : i + 1 < j := by
        rcases Nat.lt_or_eq_of_le (Nat.succ_le_of_lt lt) with later | rfl
        · exact later
        · simp [succeeds] at fails
      rw [benchmark_succ buf c leaked succeeds]
      exact ih 1 _ later (by omega)
    | false =>
      rw [benchmark, test_bind_ok (memset_filled buf c 4 leaked),
        test_bind_none (syscall_none buf succeeds)]

end Steps

section Main
variable {user user' : UserMem} {buffer : Addr} {leaked : List (List byte)}

/-- The test has a buffer whose size is an `int`: `malloc` returns none for a negative one. -/
lemma buffer_of_alloc {M : Allocator} {argv1 : Option (BitVec 32)}
    (alloc : M.alloc user (buffer_size argv1) = some (buffer, user')) :
    Buffer user' buffer (buffer_size argv1) := by
  have inside := M.inside _ _ _ _ alloc
  obtain ⟨n, size, ne⟩ : ∃ n : BitVec 32, buffer_size argv1 = n.signExtend 64 ∧ n.toInt ≠ 0 := by
    cases argv1 with
    | none => exact ⟨256, rfl, by decide⟩
    | some n =>
      by_cases zero : n.signExtend 64 = 0
      · exact ⟨256, by rw [buffer_size, if_pos zero]; rfl, by decide⟩
      · refine ⟨n, by rw [buffer_size, if_neg zero], fun e => zero ?_⟩
        rw [show n = 0 from BitVec.eq_of_toInt_eq e]
        rfl
  have narrow : (n.signExtend 64).setWidth 32 = n := by
    ext i hi
    simp [BitVec.getLsbD_signExtend, hi]
    omega
  have same : (n.signExtend 64).toInt = n.toInt := BitVec.toInt_signExtend_of_le (by decide)
  have low := n.le_toInt
  refine ⟨?_, by rw [size, narrow], inside, M.mapped _ _ _ _ alloc⟩
  rw [size, narrow]
  by_contra neg
  rw [access_ok, size, TASK_SIZE_MAX] at inside
  rw [BitVec.toInt_eq_toNat_cond] at same
  split at same
  · omega
  · omega

/-- What there is to see of the test. Without a buffer it fails. With one it succeeds if the kernel has
memory for each of its calls, and is killed otherwise. -/
def outcome (K : ℕ → Kernel) (M : Allocator) (size : BitVec 64) (p : Process) :
    Option (Except String Unit × Process) :=
  match M.alloc p.user size with
  | none => some (.error "malloc", p)
  | some (buffer, user) =>
    if ∀ j ≤ NUM_ITERATIONS, (K j).kzalloc_succeeds size = true then
      some (.ok (), filled user buffer size 1
        (p.leaked ++ .replicate (NUM_ITERATIONS + 1) (.replicate size.toNat 1)))
    else none

/-- No message but that of `malloc` is ever printed, and a successful run has lost a kernel buffer with
each of its calls. -/
theorem main_eq (K : ℕ → Kernel) (M : Allocator) (argv1 : Option (BitVec 32)) (p : Process) :
    main K M argv1 p = outcome K M (buffer_size argv1) p := by
  obtain ⟨rounds, iterations⟩ : ∃ rounds, NUM_ITERATIONS = rounds + 1 := ⟨99999, rfl⟩
  cases alloc : M.alloc p.user (buffer_size argv1) with
  | none =>
    have failed : malloc M (buffer_size argv1) p = some (.error "malloc", p) := by
      rw [malloc, alloc]
    rw [outcome, alloc, main, test_bind_error failed]
  | some r =>
    obtain ⟨buffer, user⟩ := r
    have buf := buffer_of_alloc alloc
    have got : malloc M (buffer_size argv1) p = some (.ok buffer, ⟨user, p.leaked⟩) := by
      rw [malloc, alloc]
    simp only [outcome, alloc]
    rw [main, test_bind_ok got, test_bind_ok (memset_eq buf 4 p.leaked)]
    cases first : (K 0).kzalloc_succeeds (buffer_size argv1) with
    | false =>
      rw [test_bind_none (syscall_none buf first), if_neg]
      intro all
      rw [all 0 (Nat.zero_le _)] at first
      cases first
    | true =>
      rw [test_bind_ok (syscall_filled buf 4 p.leaked first), test_bind_ok (fail_if_false (by decide) _),
        test_bind_ok (validate_filled buf _ _ (Nat.zero_add _).le),
        test_bind_ok (memset_filled buf 1 4 _), iterations]
      by_cases all : ∀ j ≤ rounds + 1, (K j).kzalloc_succeeds (buffer_size argv1) = true
      · have later : ∀ j, 0 < j → j ≤ 0 + (rounds + 1) →
            (K j).kzalloc_succeeds (buffer_size argv1) = true := fun j _ le => all j (by omega)
        rw [test_bind_ok (benchmark_filled buf 4 _ later), validate_filled buf _ _ (Nat.zero_add _).le,
          if_pos all, List.append_assoc, List.replicate_succ (n := rounds + 1)]
        rfl
      · obtain ⟨j, some⟩ := not_forall.mp all
        obtain ⟨le, fails⟩ := Classical.not_imp.mp some
        have pos : 0 < j := by
          rcases Nat.eq_zero_or_pos j with rfl | pos
          · exact absurd first fails
          · exact pos
        rw [if_neg all, test_bind_none (benchmark_none buf 4 _ pos (by omega) (by simpa using fails))]

/-- The allocator that maps the memory at an address, if it is large enough. -/
def Allocator.at (a : Addr) : Allocator where
  alloc user size :=
    if access_ok a size.toNat then
      some (a, fun x => if (x - a).toNat < size.toNat then some ⟨0, true⟩ else user x)
    else none
  inside user size b user' h := by
    split at h
    · rename_i ok
      obtain ⟨rfl, _⟩ := Prod.mk.inj (Option.some.inj h)
      exact ok
    · cases h
  mapped user size b user' h i lt := by
    split at h
    · obtain ⟨rfl, rfl⟩ := Prod.mk.inj (Option.some.inj h)
      have offset : (a + .ofNat 64 i - a).toNat < size.toNat := by
        have := size.isLt
        bv_omega
      rw [writable, if_pos offset]
      rfl
    · cases h

/-- The allocator at `a` gives a writable buffer there. -/
lemma alloc_at {a : Addr} (size : BitVec 64) (user : UserMem) (ok : access_ok a size.toNat) :
    (Allocator.at a).alloc user size =
      some (a, fun x => if (x - a).toNat < size.toNat then some ⟨0, true⟩ else user x) := if_pos ok

/-- With memory for every call, the test of 16 bytes passes and loses 100001 kernel buffers. -/
theorem main_eq_at : let K : Kernel := ⟨fun _ => true, .to_fault readable, .to_fault writable⟩
    (main (fun _ => K) (.at 0x1000) (some 16) ⟨fun _ => none, []⟩).map (fun r => r.2.leaked) =
      some (.replicate (NUM_ITERATIONS + 1) (.replicate 16 1)) := by
  intro K
  have alloc := alloc_at (a := 0x1000) (buffer_size (some 16)) (fun _ => none) (by decide)
  rw [main_eq]
  simp only [outcome, alloc]
  rw [if_pos fun _ _ => rfl]
  rfl

end Main

end CS519.AppHelper
