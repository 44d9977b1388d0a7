import Mathlib.Data.List.Basic
import Mathlib.Data.BitVec

/-!
# The kernel around the extent table

What the extent code of `mm/memory.c` uses of the kernel: `kmalloc` and `kfree`, the table's spin lock,
and the circular lists of `linux/list.h`.

`Machine` is the state outside the table. Every call that matters to a caller is recorded in `events`,
oldest first: from them come the ledger of allocated and freed objects and the order of locking and
allocating. Whether the `n`-th `kmalloc` succeeds is given by `kmalloc_succeeds`, and the address it
returns is `n`, so an address names one allocation for good.

A `long` is an `Int`: the only `long` of the extent code counts pages, each of which owns an allocated
node. An `unsigned long` is a 64-bit word and wraps.
-/

namespace CS519.Extents

/-- `unsigned long`. -/
abbrev ulong := BitVec 64

def ENOMEM : Int := 12
def EINVAL : Int := 22

/-- The allocation flags in use. -/
inductive Gfp where
  | GFP_KERNEL
  | GFP_ATOMIC
deriving DecidableEq, Repr

/-- The types of object that are allocated. -/
inductive Kind where
  | extent
  | extent_node
  | extent_page
deriving DecidableEq, Repr

/-- An allocated object. -/
structure Obj where
  kind : Kind
  addr : Nat
deriving DecidableEq, Repr

/-- A call into the kernel. -/
inductive Event where
  | spin_lock_irqsave
  | spin_unlock_irqrestore
  | kmalloc (kind : Kind) (flags : Gfp) (res : Option Nat)
  | kfree (obj : Obj)
deriving DecidableEq, Repr

/-- The event is a call of `kmalloc`. -/
@[simp] def Event.is_kmalloc : Event → Bool
  | .kmalloc _ _ _ => true
  | _ => false

section Count
variable (c : List Event)

/-- An allocation is counted. -/
@[simp] lemma countP_kmalloc (kind : Kind) (flags : Gfp) (res : Option Nat) :
    (Event.kmalloc kind flags res :: c).countP Event.is_kmalloc = c.countP Event.is_kmalloc + 1 :=
  List.countP_cons_of_pos rfl

end Count

/-- The state outside the table: which calls of `kmalloc` succeed, and what was called so far. -/
structure Machine where
  kmalloc_succeeds : Nat → Bool
  events : List Event

namespace Machine

/-- The machine before the first call. -/
def boot (kmalloc_succeeds : Nat → Bool) : Machine := ⟨kmalloc_succeeds, []⟩

/-- How many times `kmalloc` was called. -/
def kmallocs (m : Machine) : Nat := m.events.countP Event.is_kmalloc

/-- The `k`-th `kmalloc` from now succeeds. -/
def kmalloc_ok (m : Machine) (k : Nat) : Bool := m.kmalloc_succeeds (m.kmallocs + k)

/-- The machine after some more calls. -/
def after (m : Machine) (calls : List Event) : Machine := { m with events := m.events ++ calls }

/-- No call changes nothing. -/
@[simp] lemma after_nil (m : Machine) : m.after [] = m := by
  simp [after]

/-- Calls after calls. -/
@[simp] lemma after_after (m : Machine) (c d : List Event) :
    (m.after c).after d = m.after (c ++ d) := by
  simp [after]

/-- The allocations are counted on. -/
@[simp] lemma kmallocs_after (m : Machine) (c : List Event) :
    (m.after c).kmallocs = m.kmallocs + c.countP Event.is_kmalloc := by
  simp [after, kmallocs]

/-- The calls are logged in order. -/
@[simp] lemma events_after (m : Machine) (c : List Event) :
    (m.after c).events = m.events ++ c := rfl

/-- Calls do not change which allocations succeed. -/
@[simp] lemma kmalloc_succeeds_after (m : Machine) (c : List Event) :
    (m.after c).kmalloc_succeeds = m.kmalloc_succeeds := rfl

/-- The outcome of a later allocation, counted from the start. -/
@[simp] lemma kmalloc_ok_after (m : Machine) (c : List Event) (k : Nat) :
    (m.after c).kmalloc_ok k = m.kmalloc_ok (c.countP Event.is_kmalloc + k) := by
  simp [kmalloc_ok, Nat.add_assoc]

/-- Nothing is allocated while the lock is taken. -/
lemma kmallocs_lock (m : Machine) : (m.after [.spin_lock_irqsave]).kmallocs = m.kmallocs := by
  simp

/-- The lock changes no outcome. -/
lemma kmalloc_ok_lock (m : Machine) : (m.after [.spin_lock_irqsave]).kmalloc_ok = m.kmalloc_ok := by
  funext k
  simp

end Machine

/-- Code that runs in the kernel. -/
abbrev Kern := StateM Machine

section Kern
variable {α β : Type}

/-- To return leaves the machine. -/
@[simp] lemma kern_pure (a : α) (m : Machine) : (pure a : Kern α) m = (a, m) := rfl

/-- Calls in sequence pass the machine on. -/
@[simp] lemma kern_bind (x : Kern α) (f : α → Kern β) (m : Machine) :
    (x >>= f) m = f (x m).1 (x m).2 := rfl

/-- The machine does not depend on what is made of a result. -/
@[simp] lemma kern_map (x : Kern α) (f : α → β) (m : Machine) :
    (f <$> x) m = (f (x m).1, (x m).2) := rfl

end Kern

def kmalloc (kind : Kind) (flags : Gfp) : Kern (Option Nat) := fun m =>
  let res := if m.kmalloc_ok 0 then some m.kmallocs else none
  (res, m.after [.kmalloc kind flags res])

def kfree (kind : Kind) (addr : Nat) : Kern Unit := fun m => ((), m.after [.kfree ⟨kind, addr⟩])

def spin_lock_irqsave : Kern Unit := fun m => ((), m.after [.spin_lock_irqsave])

def spin_unlock_irqrestore : Kern Unit := fun m => ((), m.after [.spin_unlock_irqrestore])

/-- An allocation returns the next address or `NULL`, and is logged. -/
@[simp] lemma kmalloc_apply (kind : Kind) (flags : Gfp) (m : Machine) :
    kmalloc kind flags m = (if m.kmalloc_ok 0 then some m.kmallocs else none,
      m.after [.kmalloc kind flags (if m.kmalloc_ok 0 then some m.kmallocs else none)]) := rfl

/-- A release is logged. -/
@[simp] lemma kfree_apply (kind : Kind) (addr : Nat) (m : Machine) :
    kfree kind addr m = ((), m.after [.kfree ⟨kind, addr⟩]) := rfl

/-- The lock is taken. -/
@[simp] lemma spin_lock_irqsave_apply (m : Machine) :
    spin_lock_irqsave m = ((), m.after [.spin_lock_irqsave]) := rfl

/-- The lock is given back. -/
@[simp] lemma spin_unlock_irqrestore_apply (m : Machine) :
    spin_unlock_irqrestore m = ((), m.after [.spin_unlock_irqrestore]) := rfl

/-- A function body between `spin_lock_irqsave` and the label `out` with `spin_unlock_irqrestore`. -/
def with_lock {α : Type} (body : Kern α) : Kern α := do
  spin_lock_irqsave
  let res ← body
  spin_unlock_irqrestore
  return res

/-- The calls of a function that holds the table's lock while it makes `calls`. -/
def locked (calls : List Event) : List Event :=
  .spin_lock_irqsave :: calls ++ [.spin_unlock_irqrestore]

/-- The lock is no allocation. -/
@[simp] lemma countP_locked (calls : List Event) :
    (locked calls).countP Event.is_kmalloc = calls.countP Event.is_kmalloc := by
  simp [locked]

/-- The lock and the unlock are all that a critical section adds to its body. -/
lemma with_lock_apply {α : Type} {body : Kern α} {m : Machine} {a : α} {calls : List Event}
    (h : body (m.after [.spin_lock_irqsave]) = (a, (m.after [.spin_lock_irqsave]).after calls)) :
    with_lock body m = (a, m.after (locked calls)) := by
  simp [with_lock, h, locked]

/-! ## `linux/list.h`

A list is the sequence of its entries, without the head. A position in it is the index of an entry, or
`none` for the head itself, which is where the cursor of a `list_for_each_entry` that was not left early
ends up. -/

section List
variable {α : Type*}

/-- The cursor of a `list_for_each_entry` after the last entry. -/
def list_for_each_entry_end : Option Nat := none

def list_add (new : α) (head : List α) : List α := new :: head

def list_add_tail (new : α) (head : List α) : List α := head ++ [new]

def list_del (entry : Nat) (head : List α) : List α := head.eraseIdx entry

/-- The entries up to and including `entry`, and the rest. -/
def list_cut_position (head : List α) (entry : Nat) : List α × List α :=
  (head.take (entry + 1), head.drop (entry + 1))

/-- The entries of `list` inserted after the position `prev` of `head`. -/
def list_splice (list : List α) (prev : Option Nat) (head : List α) : List α :=
  match prev with
  | none => list ++ head
  | some entry => head.take (entry + 1) ++ list ++ head.drop (entry + 1)

def list_rotate_left : List α → List α
  | [] => []
  | first :: rest => rest ++ [first]

end List

end CS519.Extents
