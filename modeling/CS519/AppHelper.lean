import CS519.CInt
import CS519.Uaccess

/-!
# The system call `app_helper`

The call copies a buffer of its caller into one of its own, fills that with ones and copies it back. Of the
kernel it uses `kzalloc` and the two copies; whether an allocation succeeds and how far a copy gets is for
the parameter `K` to say. A store through a pointer that leads to no buffer is an oops, and the result of
the call is `none`.

The code looks at no result of the three. `reports_honestly_iff` says on which inputs it still tells its
caller the truth and cleans up after itself: on the size 0 only, for which there is nothing to do.
-/

namespace CS519.AppHelper
open CInt Uaccess Function

/-- What the kernel does when it is asked for memory or for a copy. -/
structure Kernel where
  kzalloc_succeeds : BitVec 64 → Bool
  from_user : UserCopy readable
  to_user : UserCopy writable

/-- What `kzalloc` returns. The pointer it returns for the size 0 leads to no byte, as `NULL`. -/
inductive Ptr where
  | NULL
  | ZERO_SIZE_PTR
  | object (addr : ℕ)
deriving DecidableEq

/-- The process in a call: its memory, the kernel buffers that the call has allocated and not freed, how
many it has allocated, and whether an allocation or a copy has failed. -/
structure Call where
  user : UserMem
  kernel : ℕ → Option (List byte)
  kzallocs : ℕ
  failed : Bool

namespace Call
variable (s : Call)

/-- The process as it enters the kernel. -/
def enter (user : UserMem) : Call := ⟨user, fun _ => none, 0, false⟩

/-- The bytes that a pointer leads to. -/
def bytes : Ptr → List byte
  | .NULL | .ZERO_SIZE_PTR => []
  | .object addr => (s.kernel addr).getD []

def set_bytes (p : Ptr) (data : List byte) : Call :=
  match p with
  | .NULL | .ZERO_SIZE_PTR => s
  | .object addr => { s with kernel := update s.kernel addr ((s.kernel addr).map fun _ => data) }

end Call

/-- Code of the call. -/
abbrev Sys := StateT Call Option

section Sys
variable {α β : Type}

/-- A call that returns at once leaves its state. -/
@[simp] lemma sys_pure (a : α) (s : Call) : (pure a : Sys α) s = some (a, s) := rfl

/-- Calls in sequence pass the state on, unless one kills the task. -/
@[simp] lemma sys_bind (x : Sys α) (f : α → Sys β) (s : Call) :
    (x >>= f) s = (x s).bind fun r => f r.1 r.2 := rfl

/-- The state after a call does not depend on what is made of its result. -/
@[simp] lemma sys_map (x : Sys α) (f : α → β) (s : Call) :
    (f <$> x) s = (x s).map fun r => (f r.1, r.2) := by
  change (x s).bind (fun r => some (f r.1, r.2)) = _
  cases x s <;> rfl

end Sys

section Functions
variable (K : Kernel)

/-- The address of a buffer is its number. -/
def kzalloc (size : BitVec 64) : Sys Ptr := fun s =>
  if size = 0 then some (.ZERO_SIZE_PTR, s)
  else if K.kzalloc_succeeds size then
    some (.object s.kzallocs, { s with
      kernel := update s.kernel s.kzallocs (some (.replicate size.toNat 0))
      kzallocs := s.kzallocs + 1 })
  else some (.NULL, { s with failed := true })

/-- Store bytes from an offset on. -/
def write (dst : Ptr) (i : ℕ) (data : List byte) : Sys Unit := fun s =>
  let old := s.bytes dst
  if i + data.length ≤ old.length then
    some ((), s.set_bytes dst (old.take i ++ data ++ old.drop (i + data.length)))
  else none

/-- No size beyond `INT_MAX` is copied. -/
def check_copy_size (n : BitVec 64) : Prop := n.toNat ≤ INT_MAX

instance (n : BitVec 64) : Decidable (check_copy_size n) := inferInstanceAs (Decidable (_ ≤ _))

/-- The kernel's copy of a range of which the last `left` bytes were left out. They are zero. -/
def padded (user : UserMem) (src : Addr) (n left : ℕ) : List byte :=
  (List.range (n - left)).map (fun i => (user (src + .ofNat 64 i)).elim 0 UserByte.value) ++
    .replicate left 0

/-- A copy returns how many bytes it has left out. -/
def return_left (left : ℕ) : Sys ℕ := fun s =>
  some (left, { s with failed := s.failed || left != 0 })

def copy_from_user (dst : Ptr) (src : Addr) (n : BitVec 64) : Sys ℕ := fun s =>
  if check_copy_size n then
    let left := K.from_user.left s.user src n.toNat
    (do write dst 0 (padded s.user src n.toNat left); return_left left) s
  else return_left n.toNat s

def copy_to_user (dst : Addr) (src : Ptr) (n : BitVec 64) : Sys ℕ := fun s =>
  if check_copy_size n then
    let left := K.to_user.left s.user dst n.toNat
    if n.toNat ≤ (s.bytes src).length then
      return_left left
        { s with user := overwrite s.user dst ((s.bytes src).take (n.toNat - left)) }
    else none
  else return_left n.toNat s

/-- The loop of the call, from the index `i` on. -/
def fill (kernelBuffer : Ptr) : ℕ → ℕ → Sys Unit
  | _, 0 => pure ()
  | i, rounds + 1 => do
    write kernelBuffer i [1]
    fill kernelBuffer (i + 1) rounds

/-- An `int` becomes a `size_t` and an `unsigned long` with its sign extended. -/
def app_helper (buffer : Addr) (size : BitVec 32) : Sys ℤ := do
  let kernelBuffer ← kzalloc K (size.signExtend 64)
  let _ ← copy_from_user K kernelBuffer buffer (size.signExtend 64)
  fill kernelBuffer 0 size.toInt.toNat
  let _ ← copy_to_user K buffer kernelBuffer (size.signExtend 64)
  return 0

end Functions

section Spec

/-- The bytes of the caller's buffer. -/
def Inside (buffer : Addr) (size : BitVec 32) (a : Addr) : Prop :=
  ∃ i : ℕ, (i : ℤ) < size.toInt ∧ a = buffer + .ofNat 64 i

/-- What a caller may rely on when the call has returned `ret`. -/
structure Honest (user : UserMem) (buffer : Addr) (size : BitVec 32) (ret : ℤ) (s : Call) : Prop where
  ones : ret = 0 → ∀ a, Inside buffer size a → (s.user a).map UserByte.value = some 1
  errors : s.failed = true → ret < 0
  outside : ∀ a, ¬Inside buffer size a → s.user a = user a
  freed : ∀ addr, s.kernel addr = none

/-- The call stores through no `NULL`, so it returns, and what it returns is honest. -/
def ReportsHonestly (K : Kernel) (user : UserMem) (buffer : Addr) (size : BitVec 32) : Prop :=
  ∃ ret s, app_helper K buffer size (.enter user) = some (ret, s) ∧ Honest user buffer size ret s

end Spec

section Sizes
variable {size : BitVec 32}

/-- A size that is not negative keeps its value when it is extended. -/
lemma toNat_size (h : 0 ≤ size.toInt) : (size.signExtend 64).toNat = size.toInt.toNat := by
  have same : (size.signExtend 64).toInt = size.toInt := BitVec.toInt_signExtend_of_le (by decide)
  have hi := size.toInt_lt
  rw [BitVec.toInt_eq_toNat_cond] at same
  split at same
  · omega
  · omega

/-- Such a size passes the check for sizes beyond `INT_MAX`. -/
lemma check_size (h : 0 ≤ size.toInt) : check_copy_size (size.signExtend 64) := by
  have hi := size.toInt_lt
  rw [check_copy_size, toNat_size h, INT_MAX]
  omega

/-- A negative size is a large one. -/
lemma check_size_neg (h : size.toInt < 0) : ¬check_copy_size (size.signExtend 64) := by
  have same : (size.signExtend 64).toInt = size.toInt := BitVec.toInt_signExtend_of_le (by decide)
  have lo := size.le_toInt
  rw [check_copy_size, INT_MAX]
  rw [BitVec.toInt_eq_toNat_cond] at same
  split at same
  · omega
  · omega

/-- A size other than zero stays so. -/
lemma size_ne_zero (h : size.toInt ≠ 0) : size.signExtend 64 ≠ 0 := by
  intro e
  have same : (size.signExtend 64).toInt = size.toInt := BitVec.toInt_signExtend_of_le (by decide)
  rw [e] at same
  exact h same.symm

end Sizes

/-- The process while the call holds its buffer. -/
def holding (user : UserMem) (data : List byte) (failed : Bool) : Call :=
  ⟨user, update (fun _ => none) 0 (some data), 1, failed⟩

section Steps
variable (K : Kernel) (user : UserMem) (old data : List byte) (failed : Bool) {n : BitVec 64}

/-- The object of the call holds the data. -/
@[simp] lemma bytes_holding : (holding user data failed).bytes (.object 0) = data := by
  simp [Call.bytes, holding]

/-- To write the whole object replaces the data. -/
@[simp] lemma set_bytes_holding :
    (holding user old failed).set_bytes (.object 0) data = holding user data failed := by
  simp [Call.set_bytes, holding]

/-- The allocation succeeds, and the object is filled with zeros. -/
lemma kzalloc_object (ne : n ≠ 0) (succeeds : K.kzalloc_succeeds n = true) :
    kzalloc K n (.enter user) = some (.object 0, holding user (.replicate n.toNat 0) false) := by
  rw [kzalloc, if_neg ne, if_pos succeeds]
  rfl

/-- The allocation fails, and nothing else happens. -/
lemma kzalloc_null {s : Call} (ne : n ≠ 0) (fails : K.kzalloc_succeeds n = false) :
    kzalloc K n s = some (.NULL, { s with failed := true }) := by
  rw [kzalloc, if_neg ne, if_neg (Bool.not_eq_true _ ▸ fails)]

/-- A write that fits replaces a part of the data. -/
lemma write_holding (i : ℕ) (fits : i + data.length ≤ old.length) :
    write (.object 0) i data (holding user old failed) =
      some ((), holding user (old.take i ++ data ++ old.drop (i + data.length)) failed) := by
  simp [write, fits]

/-- The loop sets the rest of the buffer. -/
lemma fill_holding (rest : List byte) (i : ℕ) :
    fill (.object 0) i rest.length (holding user (.replicate i 1 ++ rest) failed) =
      some ((), holding user (.replicate (i + rest.length) 1) failed) := by
  induction rest generalizing i with
  | nil => rw [List.append_nil, List.length_nil, fill, sys_pure, Nat.add_zero]
  | cons b rest ih =>
    have next : (List.replicate i (1 : byte) ++ b :: rest).take i ++ [1] ++
        (List.replicate i (1 : byte) ++ b :: rest).drop (i + 1) = .replicate (i + 1) 1 ++ rest := by
      rw [List.take_left' List.length_replicate, List.drop_append]
      simp [List.replicate_succ']
    have stored := write_holding user (.replicate i 1 ++ b :: rest) [1] failed i (by simp)
    rw [List.length_singleton, next] at stored
    have count : i + 1 + rest.length = i + (rest.length + 1) := by omega
    rw [List.length_cons, fill, sys_bind, stored, Option.bind_some, ih, count]

/-- What is missing of a copy is filled up to its length. -/
lemma length_padded (src : Addr) {n left : ℕ} (le : left ≤ n) :
    (padded user src n left).length = n := by
  simp [padded]
  omega

/-- The buffer is filled by a copy from the user, whatever of it is left out. -/
lemma copy_from_user_holding (src : Addr) (size : check_copy_size n) (fits : old.length = n.toNat) :
    ∃ copied : List byte, copied.length = n.toNat ∧
      copy_from_user K (.object 0) src n (holding user old failed) =
        some (K.from_user.left user src n.toNat,
          holding user copied (failed || K.from_user.left user src n.toNat != 0)) := by
  have length := length_padded user src (K.from_user.left_le user src n.toNat)
  refine ⟨_, length, ?_⟩
  have stored := write_holding user old (padded user src n.toNat (K.from_user.left user src n.toNat))
    failed 0 (by omega)
  rw [List.take_zero, List.nil_append, List.drop_eq_nil_of_le (by omega), List.append_nil] at stored
  rw [copy_from_user, if_pos size, sys_bind]
  simp only [holding] at stored ⊢
  rw [stored, Option.bind_some]
  rfl

/-- No byte can be stored through a pointer that leads to none. -/
lemma copy_from_user_null {s : Call} {src : Addr} (size : check_copy_size n) (pos : 0 < n.toNat) :
    copy_from_user K .NULL src n s = none := by
  have length := length_padded s.user src (K.from_user.left_le s.user src n.toNat)
  rw [copy_from_user, if_pos size, sys_bind, write, if_neg, Option.bind_none]
  rw [length, Call.bytes, List.length_nil]
  omega

/-- The copy reaches the buffer of the user, apart from the bytes that are left. -/
lemma copy_to_user_holding (dst : Addr) (size : check_copy_size n) (fits : data.length = n.toNat) :
    copy_to_user K dst (.object 0) n (holding user data failed) =
      some (K.to_user.left user dst n.toNat,
        holding (overwrite user dst (data.take (n.toNat - K.to_user.left user dst n.toNat))) data
          (failed || K.to_user.left user dst n.toNat != 0)) := by
  rw [copy_to_user, if_pos size, bytes_holding, if_pos fits.ge]
  rfl

/-- The call is its four steps. -/
lemma app_helper_steps {buffer : Addr} {size : BitVec 32} {kernelBuffer : Ptr} {l l' : ℕ}
    {s s₁ s₂ s₃ s₄ : Call} (alloc : kzalloc K (size.signExtend 64) s = some (kernelBuffer, s₁))
    (copied : copy_from_user K kernelBuffer buffer (size.signExtend 64) s₁ = some (l, s₂))
    (filled : fill kernelBuffer 0 size.toInt.toNat s₂ = some ((), s₃))
    (returned : copy_to_user K buffer kernelBuffer (size.signExtend 64) s₃ = some (l', s₄)) :
    app_helper K buffer size s = some (0, s₄) := by
  rw [app_helper, sys_bind, alloc, Option.bind_some, sys_bind, copied, Option.bind_some, sys_bind,
    filled, Option.bind_some, sys_bind, returned, Option.bind_some, sys_pure]

end Steps

section Outcomes
variable (K : Kernel) (user : UserMem) (buffer : Addr) {size : BitVec 32}

/-- Nothing happens for the size 0. -/
lemma app_helper_zero : app_helper K buffer 0 (.enter user) = some (0, .enter user) := by
  simp [app_helper, kzalloc, copy_from_user, copy_to_user, check_copy_size, write, padded, fill,
    return_left, Call.bytes, Call.set_bytes, Call.enter]

/-- Without a buffer, the first byte is stored through `NULL`. -/
lemma app_helper_null (pos : 0 < size.toInt)
    (fails : K.kzalloc_succeeds (size.signExtend 64) = false) :
    app_helper K buffer size (.enter user) = none := by
  have n := toNat_size pos.le
  rw [app_helper, sys_bind, kzalloc_null K (size_ne_zero pos.ne') fails, Option.bind_some, sys_bind,
    copy_from_user_null K (check_size pos.le) (by omega), Option.bind_none]

/-- The buffer is filled with ones and copied back as far as that goes. It is not freed. -/
lemma app_helper_done (pos : 0 < size.toInt)
    (succeeds : K.kzalloc_succeeds (size.signExtend 64) = true) :
    app_helper K buffer size (.enter user) = some (0, holding
      (overwrite user buffer
        (.replicate (size.toInt.toNat - K.to_user.left user buffer size.toInt.toNat) 1))
      (.replicate size.toInt.toNat 1)
      (K.from_user.left user buffer size.toInt.toNat != 0 ||
        K.to_user.left user buffer size.toInt.toNat != 0)) := by
  have n := toNat_size pos.le
  have ck := check_size pos.le
  have alloc := kzalloc_object K user (size_ne_zero pos.ne') succeeds
  obtain ⟨copied, length, copy⟩ :=
    copy_from_user_holding K user _ false buffer ck List.length_replicate
  have filled := fill_holding user (false || K.from_user.left user buffer size.toInt.toNat != 0)
    copied 0
  rw [n] at alloc length copy
  rw [List.replicate_zero, List.nil_append, Nat.zero_add, length] at filled
  have back := copy_to_user_holding K user (.replicate size.toInt.toNat 1)
    (false || K.from_user.left user buffer size.toInt.toNat != 0) buffer ck
    (by rw [n, List.length_replicate])
  rw [n] at back
  rw [app_helper_steps K alloc copy filled back]
  simp [List.take_replicate]

/-- A negative size is refused by both copies, and the call returns 0. -/
lemma app_helper_neg (neg : size.toInt < 0) :
    ∃ s, app_helper K buffer size (.enter user) = some (0, s) ∧ s.failed = true ∧ s.user = user := by
  have refused := check_size_neg neg
  have rounds : size.toInt.toNat = 0 := Int.toNat_of_nonpos neg.le
  have positive : (size.signExtend 64).toNat ≠ 0 := by
    intro e
    exact refused (by rw [check_copy_size, e]; exact Nat.zero_le _)
  obtain ⟨p, s₁, alloc, same⟩ : ∃ p s₁,
      kzalloc K (size.signExtend 64) (.enter user) = some (p, s₁) ∧ s₁.user = user := by
    by_cases succeeds : K.kzalloc_succeeds (size.signExtend 64) = true
    · exact ⟨_, _, kzalloc_object K user (size_ne_zero neg.ne) succeeds, rfl⟩
    · exact ⟨_, _, kzalloc_null K (size_ne_zero neg.ne) (by simpa using succeeds), rfl⟩
  have filled : ∀ s, fill p 0 size.toInt.toNat s = some ((), s) := by
    intro s
    rw [rounds, fill, sys_pure]
  refine ⟨_, app_helper_steps K alloc (if_neg refused) (filled _) (if_neg refused), ?_, same⟩
  simp [positive]

end Outcomes

section Results
variable (K : Kernel) (user : UserMem) {buffer : Addr} {size : BitVec 32}

/-- The addresses of the buffer, by their distance from its start. -/
lemma inside_iff {a : Addr} : Inside buffer size a ↔ (a - buffer).toNat < size.toInt.toNat := by
  have hi := size.toInt_lt
  constructor
  · rintro ⟨i, lt, rfl⟩
    have e : (buffer + .ofNat 64 i - buffer).toNat = i := by bv_omega
    omega
  · intro lt
    refine ⟨(a - buffer).toNat, by omega, ?_⟩
    rw [BitVec.ofNat_toNat, BitVec.setWidth_eq]
    bv_omega

/-- No byte outside of the caller's buffer changes. -/
theorem app_helper_outside {ret : ℤ} {s : Call}
    (h : app_helper K buffer size (.enter user) = some (ret, s)) {a : Addr}
    (outside : ¬Inside buffer size a) : s.user a = user a := by
  obtain neg | zero | pos := lt_trichotomy size.toInt 0
  · obtain ⟨s', h', _, same⟩ := app_helper_neg K user buffer neg
    obtain ⟨_, rfl⟩ : 0 = ret ∧ s' = s := by simpa [h'] using h
    rw [same]
  · have none : size = 0 := BitVec.eq_of_toInt_eq zero
    rw [none, app_helper_zero] at h
    cases h
    rfl
  · cases succeeds : K.kzalloc_succeeds (size.signExtend 64) with
    | false =>
      rw [app_helper_null K user buffer pos succeeds] at h
      cases h
    | true =>
      rw [app_helper_done K user buffer pos succeeds] at h
      cases h
      apply overwrite_outside
      rw [inside_iff] at outside
      rw [List.length_replicate]
      omega

/-- With memory and a buffer that may be read and written all of it is set to ones. -/
theorem app_helper_ones (pos : 0 < size.toInt)
    (succeeds : K.kzalloc_succeeds (size.signExtend 64) = true)
    (ok : access_ok buffer size.toInt.toNat)
    (mapped : ∀ a, Inside buffer size a → writable user a = true) :
    ∃ s, app_helper K buffer size (.enter user) = some (0, s) ∧ s.failed = false ∧
      ∀ a, Inside buffer size a → (s.user a).map UserByte.value = some 1 := by
  have inside : ∀ i < size.toInt.toNat, Inside buffer size (buffer + .ofNat 64 i) :=
    fun i lt => ⟨i, by omega, rfl⟩
  have exists_byte : ∀ a, Inside buffer size a → ∃ b, user a = some b := by
    intro a h
    have ok := mapped a h
    rw [writable] at ok
    cases e : user a with
    | none => simp [e] at ok
    | some b => exact ⟨b, rfl⟩
  have from_all : K.from_user.left user buffer size.toInt.toNat = 0 := by
    refine K.from_user.complete user buffer _ ok fun i lt => ?_
    obtain ⟨b, e⟩ := exists_byte _ (inside i lt)
    rw [readable, e]
    rfl
  have to_all : K.to_user.left user buffer size.toInt.toNat = 0 :=
    K.to_user.complete user buffer _ ok fun i lt => mapped _ (inside i lt)
  refine ⟨_, app_helper_done K user buffer pos succeeds, ?_, fun a h => ?_⟩
  · simp [holding, from_all, to_all]
  · obtain ⟨b, e⟩ := exists_byte a h
    rw [inside_iff] at h
    simp only [holding, to_all, Nat.sub_zero, overwrite_replicate h, e]
    rfl

/-- The call reports honestly exactly if there is nothing to do: for a positive size it stores through
`NULL` or keeps its buffer, and for a negative one it returns 0 although it has copied nothing. -/
theorem reports_honestly_iff (user : UserMem) (buffer : Addr) (size : BitVec 32) :
    ReportsHonestly K user buffer size ↔ size = 0 := by
  constructor
  · rintro ⟨ret, s, h, honest⟩
    obtain neg | zero | pos := lt_trichotomy size.toInt 0
    · obtain ⟨s', h', failed, _⟩ := app_helper_neg K user buffer neg
      obtain ⟨rfl, rfl⟩ : 0 = ret ∧ s' = s := by simpa [h'] using h
      exact absurd (honest.errors failed) (lt_irrefl 0)
    · exact BitVec.eq_of_toInt_eq zero
    · cases succeeds : K.kzalloc_succeeds (size.signExtend 64) with
      | false =>
        rw [app_helper_null K user buffer pos succeeds] at h
        cases h
      | true =>
        rw [app_helper_done K user buffer pos succeeds] at h
        cases h
        have kept := honest.freed 0
        simp [holding] at kept
  · rintro rfl
    refine ⟨0, _, app_helper_zero K user buffer, ?_, ?_, fun _ _ => rfl, fun _ => rfl⟩
    · rintro - a ⟨i, lt, -⟩
      have : (i : ℤ) < 0 := lt
      omega
    · intro failed
      exact absurd failed Bool.false_ne_true

end Results

/-- Nothing is mapped at the caller's 16 bytes, and the allocation succeeds: the call returns 0. -/
theorem not_reports_honestly :
    ¬ReportsHonestly ⟨fun _ => true, .to_fault readable, .to_fault writable⟩
      (fun _ => none) 0x1000 16 := by
  rintro ⟨ret, s, h, honest⟩
  rw [app_helper_done _ _ _ (by decide) rfl] at h
  cases h
  exact absurd (honest.errors (by decide)) (lt_irrefl 0)

end CS519.AppHelper
