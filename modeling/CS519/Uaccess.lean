import Mathlib.Data.BitVec
import Mathlib.Data.List.Range
import Mathlib.Data.List.TakeWhile

/-!
# User memory

The memory of a process as a system call sees it: a partial map from addresses to bytes, some of which may
not be written. `UserCopy` is what the kernel promises of its copies from and to such a memory, in terms of
the bytes that a copy leaves out: it may stop at any byte and does not pass one that it cannot access.
`UserCopy.to_fault` is the copy that goes as far as it can.
-/

namespace CS519.Uaccess

abbrev byte := BitVec 8

abbrev Addr := BitVec 64

/-- A mapped byte. -/
structure UserByte where
  value : byte
  writable : Bool
deriving DecidableEq

abbrev UserMem := Addr → Option UserByte

def readable (user : UserMem) (a : Addr) : Bool := (user a).isSome

def writable (user : UserMem) (a : Addr) : Bool := (user a).any UserByte.writable

/-- The end of the addresses of a process. -/
def TASK_SIZE_MAX : ℕ := 2 ^ 47 - 4096

def access_ok (a : Addr) (n : ℕ) : Prop := a.toNat + n ≤ TASK_SIZE_MAX

instance (a : Addr) (n : ℕ) : Decidable (access_ok a n) := inferInstanceAs (Decidable (_ ≤ _))

/-- Overwrite the mapped bytes from an address on. -/
def overwrite (user : UserMem) (a : Addr) (data : List byte) : UserMem := fun x =>
  match data[(x - a).toNat]? with
  | some v => (user x).map fun b => { b with value := v }
  | none => user x

section Overwrite
variable {user : UserMem} {a x : Addr} {data : List byte}

/-- No data overwrites nothing. -/
@[simp] lemma overwrite_nil : overwrite user a [] = user := rfl

/-- Bytes outside the range stay. -/
lemma overwrite_outside (h : data.length ≤ (x - a).toNat) : overwrite user a data x = user x := by
  rw [overwrite, List.getElem?_eq_none h]

/-- Bytes inside the range get the value. -/
lemma overwrite_replicate {n : ℕ} {v : byte} (h : (x - a).toNat < n) :
    overwrite user a (.replicate n v) x = (user x).map fun b => { b with value := v } := by
  rw [overwrite, List.getElem?_replicate, if_pos h]

/-- A later store to the same bytes replaces an earlier one. -/
lemma overwrite_overwrite {data' : List byte} (same : data.length = data'.length) :
    overwrite (overwrite user a data) a data' = overwrite user a data' := by
  funext x
  by_cases h : (x - a).toNat < data'.length
  · have h' : (x - a).toNat < data.length := same ▸ h
    simp only [overwrite, List.getElem?_eq_getElem h, List.getElem?_eq_getElem h', Option.map_map]
    rfl
  · have le := not_lt.mp h
    rw [overwrite_outside le, overwrite_outside le, overwrite_outside (same ▸ le)]

/-- What is writable stays so. -/
@[simp] lemma writable_overwrite : writable (overwrite user a data) x = writable user x := by
  rw [writable, writable, overwrite]
  cases data[(x - a).toNat]? with
  | none => rfl
  | some v => cases user x <;> rfl

end Overwrite

/-- A copy of the kernel between its own memory and that of a process. `left` is what it returns, the
number of bytes left out. Those it does copy satisfy `ok`, and it copies all bytes of a range within the
addresses of a process if they do. -/
structure UserCopy (ok : UserMem → Addr → Bool) where
  left : UserMem → Addr → ℕ → ℕ
  left_le : ∀ user a n, left user a n ≤ n
  copied : ∀ user a n i, i + left user a n < n → ok user (a + .ofNat 64 i) = true
  complete : ∀ user a n, access_ok a n → (∀ i < n, ok user (a + .ofNat 64 i) = true) →
    left user a n = 0

/-- A copy of nothing leaves nothing out. -/
@[simp] lemma UserCopy.left_zero {ok : UserMem → Addr → Bool} (c : UserCopy ok) (user : UserMem)
    (a : Addr) : c.left user a 0 = 0 :=
  Nat.le_zero.mp (c.left_le user a 0)

/-- The copy that stops at the first byte it cannot access. -/
def UserCopy.to_fault (ok : UserMem → Addr → Bool) : UserCopy ok where
  left user a n :=
    if access_ok a n then n - ((List.range n).takeWhile fun i => ok user (a + .ofNat 64 i)).length
    else n
  left_le user a n := by
    split
    · exact Nat.sub_le _ _
    · exact le_rfl
  copied user a n i h := by
    split at h
    · have lt : i < ((List.range n).takeWhile fun i => ok user (a + .ofNat 64 i)).length := by omega
      have mem := List.getElem_mem lt
      have pass := List.mem_takeWhile_imp mem
      rwa [List.IsPrefix.getElem (List.takeWhile_prefix _) lt, List.getElem_range] at pass
    · omega
  complete user a n inside all := by
    have whole : (List.range n).takeWhile (fun i => ok user (a + .ofNat 64 i)) = List.range n :=
      List.takeWhile_eq_self_iff.mpr fun i mem => all i (List.mem_range.mp mem)
    rw [if_pos inside, whole, List.length_range, Nat.sub_self]

end CS519.Uaccess
