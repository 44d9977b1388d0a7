import CS519.Extents.Report

/-!
# The critical section of the table

The calls that the four entry points make between taking and releasing the lock of the table, for every
table, well-formed or not. `Calls P x` says that `x` only makes calls that satisfy `P`; it is proved along
the structure of a function, so a helper is looked at once.

No function between the lock and the unlock locks again, so every call takes and releases the lock once.
`extent_init` and `extent_add_adjacent` allocate with `GFP_KERNEL`, which may sleep, although their callers
hold the lock: an insertion is safe only if it fails before it gets there (`critical_iff`).
-/

namespace CS519.Extents

/-- The allocation may sleep. -/
def Gfp.sleeps : Gfp → Bool
  | GFP_KERNEL => true
  | GFP_ATOMIC => false

namespace Event

/-- The call neither takes nor releases the lock. -/
def unlocked : Event → Prop
  | spin_lock_irqsave => False
  | spin_unlock_irqrestore => False
  | _ => True

/-- The call is an allocation that may sleep. -/
def sleeps : Event → Prop
  | kmalloc _ flags _ => flags.sleeps
  | _ => False

/-- The call may be made while the lock is held. -/
def harmless (e : Event) : Prop := e.unlocked ∧ ¬e.sleeps

end Event

/-- The code makes calls that satisfy `P`, and no others. -/
def Calls (P : Event → Prop) {α : Type} (x : Kern α) : Prop :=
  ∀ m, ∃ calls, (x m).2 = m.after calls ∧ ∀ e ∈ calls, P e

namespace Calls
variable {P Q : Event → Prop} {α β : Type}

/-- To return makes no call. -/
lemma pure (a : α) : Calls P (Pure.pure a : Kern α) := fun m => ⟨[], by simp, by simp⟩

/-- Calls in sequence, from those of both parts. -/
lemma bind {x : Kern α} {f : α → Kern β} (hx : Calls P x) (hf : ∀ a, Calls P (f a)) :
    Calls P (x >>= f) := by
  intro m
  obtain ⟨c, run, all⟩ := hx m
  obtain ⟨d, run', all'⟩ := hf (x m).1 (m.after c)
  refine ⟨c ++ d, ?_, fun e mem => ?_⟩
  · rw [kern_bind, run, run', Machine.after_after]
  · cases List.mem_append.mp mem with
    | inl mem => exact all e mem
    | inr mem => exact all' e mem

/-- An allocation is one call, with either outcome. -/
lemma kmalloc {kind : Kind} {flags : Gfp} (h : ∀ res, P (.kmalloc kind flags res)) :
    Calls P (Extents.kmalloc kind flags) := fun m => ⟨_, rfl, by simpa using h _⟩

/-- A release is one call. -/
lemma kfree {kind : Kind} {addr : Nat} (h : ∀ obj, P (.kfree obj)) :
    Calls P (Extents.kfree kind addr) := fun m => ⟨_, rfl, by simpa using h _⟩

end Calls

section Helpers
variable {P : Event → Prop}

/-- Every allocation is made with one of the two flags. -/
lemma calls_extent_init (page : ∀ res, P (page_alloc res)) (ex : Extent) (pte : ulong) :
    Calls P (extent_init ex pte) := by
  refine (Calls.kmalloc page).bind fun res => ?_
  cases res with
  | none => exact .pure _
  | some first => exact .pure _

/-- `extent_add_adjacent` allocates a page node and nothing else. -/
lemma calls_extent_add_adjacent (page : ∀ res, P (page_alloc res)) (ex : Extent) (pte : ulong) :
    Calls P (extent_add_adjacent ex pte) := by
  unfold extent_add_adjacent
  split
  · exact (Calls.kmalloc page).bind (Option.forall.mpr ⟨.pure _, fun _ => .pure _⟩)
  · split
    · exact (Calls.kmalloc page).bind (Option.forall.mpr ⟨.pure _, fun _ => .pure _⟩)
    · exact .pure _

variable (free : ∀ obj, P (.kfree obj))
include free

/-- `extent_destroy` frees the extent. -/
lemma calls_extent_destroy (ex : Extent) : Calls P (extent_destroy ex) := by
  unfold extent_destroy
  split
  · exact .pure _
  · exact (Calls.kfree free).bind fun _ => .pure _

/-- `extent_merge` frees the extent that has been merged. -/
lemma calls_extent_merge (to_ex from_ex : Extent) : Calls P (extent_merge to_ex from_ex) := by
  unfold extent_merge
  split
  · exact .pure _
  · split
    · exact .pure _
    · -- either way the emptied extent is freed
      dsimp only
      split
      · exact (calls_extent_destroy free _).bind fun _ => .pure _
      · split
        · exact (calls_extent_destroy free _).bind fun _ => .pure _
        · exact .pure _

/-- `extent_trim` frees page nodes. -/
lemma calls_extent_trim (ex : Extent) (pte : ulong) : Calls P (extent_trim ex pte) := by
  have loop : ∀ list, Calls P (extent_trim_loop pte list) := by
    intro list
    cases list with
    | nil => exact .pure _
    | cons curr_page rest =>
      rw [extent_trim_loop]
      split
      · exact (Calls.kfree free).bind fun _ => .pure _
      · exact .pure _
  unfold extent_trim
  split
  · exact .pure _
  · exact (loop _).bind fun _ => .pure _

/-- `extent_split` frees a page node. -/
lemma calls_extent_split (src_ex : Extent) (pte : ulong) (new_right_half : Extent) :
    Calls P (extent_split src_ex pte new_right_half) := by
  have loop : ∀ src_list right_list, Calls P (extent_split_loop pte src_list right_list) := by
    intro src_list right_list
    unfold extent_split_loop
    split
    · exact .pure _
    · exact (Calls.kfree free).bind fun _ => .pure _
  unfold extent_split
  split
  · exact .pure _
  · split
    · exact .pure _
    · exact (loop _ _).bind fun _ => .pure _

end Helpers

section Bodies
variable (rb : Rebalance ExtentNode) (pt : ExtentPagetable) (phys_addr : ulong)

/-- An insertion never locks again. -/
lemma calls_insert_beside (adj : List ExtentNode) :
    Calls Event.unlocked (insert_beside rb pt phys_addr adj) := by
  have alloc : ∀ kind flags res, Event.unlocked (.kmalloc kind flags res) := fun _ _ _ => trivial
  have free : ∀ obj, Event.unlocked (.kfree obj) := fun _ => trivial
  have add : ∀ ex, Calls Event.unlocked (extent_add_adjacent ex phys_addr) :=
    fun ex => calls_extent_add_adjacent (alloc _ _) ex phys_addr
  match adj with
  | [adj0, adj1] =>
    refine (add _).bind fun _ => (calls_extent_merge free _ _).bind fun _ => ?_
    exact (Calls.kfree free).bind fun _ => .pure _
  | [en] =>
    rw [insert_beside, insert_adjacent]
    split
    · exact (add _).bind fun _ => .pure _
    · exact (add _).bind fun _ => .pure _
  | [] | _ :: _ :: _ :: _ =>
    refine (Calls.kmalloc (alloc _ _)).bind fun ex => ?_
    cases ex with
    | none => exact .pure _
    | some ex =>
      refine (Calls.kmalloc (alloc _ _)).bind fun en => ?_
      cases en with
      | none => exact (Calls.kfree free).bind fun _ => .pure _
      | some en => exact (calls_extent_init (alloc _ _) _ _).bind fun _ => .pure _

/-- A removal allocates atomically. -/
lemma calls_remove_from (found : Option ExtentNode) :
    Calls Event.harmless (remove_from rb pt phys_addr found) := by
  have alloc : ∀ kind res, Event.harmless (.kmalloc kind .GFP_ATOMIC res) :=
    fun _ _ => ⟨trivial, Bool.false_ne_true⟩
  have free : ∀ obj, Event.harmless (.kfree obj) := fun _ => ⟨trivial, id⟩
  cases found with
  | none => exact .pure _
  | some old_en =>
    rw [remove_from]
    split
    · have trim := calls_extent_trim free old_en.ex phys_addr
      unfold remove_edge
      dsimp only
      split
      · refine trim.bind fun _ => (Calls.kfree free).bind fun _ => ?_
        exact (Calls.kfree free).bind fun _ => .pure _
      · split
        · exact trim.bind fun _ => .pure _
        · exact trim.bind fun _ => .pure _
    · refine (Calls.kmalloc (alloc _)).bind fun right_ex => ?_
      cases right_ex with
      | none => exact .pure _
      | some right_ex =>
        refine (Calls.kmalloc (alloc _)).bind fun left_en => ?_
        cases left_en with
        | none => exact (Calls.kfree free).bind fun _ => .pure _
        | some left_en =>
          refine (Calls.kmalloc (alloc _)).bind fun right_en => ?_
          cases right_en with
          | none =>
            exact (Calls.kfree free).bind fun _ => (Calls.kfree free).bind fun _ => .pure _
          | some right_en =>
            refine (calls_extent_split free _ _ _).bind fun _ => ?_
            exact (Calls.kfree free).bind fun _ => .pure _

/-- A teardown does not allocate. -/
lemma calls_destroy_loop (fuel : Nat) (root : Tree ExtentNode) (node : Option ExtentNode)
    (visited : List ExtentNode) :
    Calls Event.harmless (destroy_loop rb fuel root node visited) := by
  have free : ∀ obj, Event.harmless (.kfree obj) := fun _ => ⟨trivial, id⟩
  induction fuel generalizing root node visited with
  | zero =>
    cases node with
    | none => exact .pure _
    | some en => exact .pure _
  | succ fuel ih =>
    cases node with
    | none => exact .pure _
    | some en => exact (Calls.kfree free).bind fun _ => (Calls.kfree free).bind fun _ => ih _ _ _

/-- What is left after an erasure still holds what came after the erased value. -/
lemma mem_eraseP_of_after {α : Type} {q : α → Bool} {x : α} : ∀ {l : List α},
    x ∈ (l.dropWhile fun a => !q a).tail → x ∈ l.eraseP q
  | [], h => by simp at h
  | a :: l, h => by
    by_cases hq : q a
    · simpa [List.dropWhile_cons, hq] using h
    · rw [List.eraseP_cons_of_neg hq]
      exact List.mem_cons_of_mem a (mem_eraseP_of_after (by simpa [List.dropWhile_cons, hq] using h))

/-- Every round of the teardown erases a node, so it ends after as many rounds as there are nodes. -/
lemma destroy_loop_ends (fuel : Nat) {root : Tree ExtentNode} (node : Option ExtentNode)
    (visited : List ExtentNode) (m : Machine) (present : ∀ en ∈ node, ∃ x ∈ root.inorder, x.at en.addr)
    (le : root.inorder.length ≤ fuel) : (destroy_loop rb fuel root node visited m).1.isSome := by
  induction fuel generalizing root node visited m with
  | zero =>
    cases node with
    | none => rfl
    | some en =>
      obtain ⟨x, mem, _⟩ := present en rfl
      simp [List.length_eq_zero_iff.mp (Nat.le_zero.mp le)] at mem
  | succ fuel ih =>
    cases node with
    | none => rfl
    | some en =>
      obtain ⟨x, mem, here⟩ := present en rfl
      refine ih _ _ _ (fun next h => ⟨next, ?_, by simp [ExtentNode.at]⟩) ?_
      · rw [rb.inorder_erase]
        exact mem_eraseP_of_after (List.mem_of_mem_head? h)
      · have fewer := List.length_eraseP_of_mem mem here
        rw [rb.inorder_erase, fewer]
        omega

end Bodies

/-! ## The entry points -/

/-- The functions of the table that take its lock. -/
inductive Entry where
  | insert_or_add (phys_addr : ulong)
  | remove_page (phys_addr : ulong)
  | print (pid : int)
  | destroy
deriving DecidableEq, Repr

namespace Entry
variable (rb : Rebalance ExtentNode) (pt : ExtentPagetable) (m : Machine)

/-- The machine after a call, if it returns. -/
def call : Entry → Option Machine
  | insert_or_add phys_addr => some (extent_rb_insert_or_add rb pt phys_addr m).2
  | remove_page phys_addr => some (extent_rb_remove_page rb pt phys_addr m).2
  | print pid => some (extent_rb_print pid pt m).2
  | destroy =>
    let (res, m) := extent_rb_destroy rb pt.root.inorder.length pt m
    res.map fun _ => m

/-- The call takes the lock first, releases it last and does neither in between, and in between no
allocation may sleep. -/
def Safe (e : Entry) : Prop :=
  ∃ body, e.call rb pt m = some (m.after (locked body)) ∧ ∀ c ∈ body, c.harmless

/-- The call comes to no page node: it does not insert, or the page touches no extent and the extent or the
tree node for it cannot be allocated. -/
def skips_page_node : Entry → Prop
  | insert_or_add phys_addr =>
    extent_rb_find_all_adjacent pt.root phys_addr = [] ∧ ¬(m.kmalloc_ok 0 ∧ m.kmalloc_ok 1)
  | _ => True

end Entry

/-- A critical section makes the calls of its body, between the lock and the unlock. -/
lemma with_lock_calls {α : Type} {body : Kern α} {m : Machine} {calls : List Event}
    (h : (body (m.after [.spin_lock_irqsave])).2 = (m.after [.spin_lock_irqsave]).after calls) :
    (with_lock body m).2 = m.after (locked calls) :=
  congrArg Prod.snd (with_lock_apply (Prod.ext rfl h))

/-- The calls that were made can be read off the machine. -/
lemma after_inj {m : Machine} {c d : List Event} (h : m.after c = m.after d) : c = d := by
  have events := congrArg Machine.events h
  exact List.append_cancel_left events

/-- The calls under the lock can be read off the log. -/
lemma locked_inj {c d : List Event} (h : locked c = locked d) : c = d :=
  List.append_cancel_right (List.cons.inj h).2

/-- The code makes an allocation that may sleep. -/
def MaySleep {α : Type} (x : Kern α) (m : Machine) : Prop :=
  ∃ calls, (x m).2 = m.after calls ∧ ∃ c ∈ calls, c.sleeps

/-- What comes later does not undo a call. -/
lemma MaySleep.bind {α β : Type} {x : Kern α} {f : α → Kern β} {m : Machine} (hx : MaySleep x m)
    (hf : ∀ a, Calls Event.unlocked (f a)) : MaySleep (x >>= f) m := by
  obtain ⟨c, run, e, mem, sleeps⟩ := hx
  obtain ⟨d, run', _⟩ := hf (x m).1 (m.after c)
  refine ⟨c ++ d, ?_, e, List.mem_append_left d mem, sleeps⟩
  rw [kern_bind, run, run', Machine.after_after]

/-- A call that sleeps after some others. -/
lemma MaySleep.later {α β : Type} {x : Kern α} {f : α → Kern β} {m : Machine} (calls : List Event)
    (run : (x m).2 = m.after calls) (hf : MaySleep (f (x m).1) (m.after calls)) :
    MaySleep (x >>= f) m := by
  obtain ⟨d, run', e, mem, sleeps⟩ := hf
  refine ⟨calls ++ d, ?_, e, List.mem_append_right calls mem, sleeps⟩
  rw [kern_bind, run, run', Machine.after_after]

/-- An allocation with `GFP_KERNEL` may sleep. -/
lemma kmalloc_sleeps (kind : Kind) (m : Machine) : MaySleep (kmalloc kind .GFP_KERNEL) m :=
  ⟨_, rfl, _, List.mem_singleton_self _, rfl⟩

section Insertion
variable (rb : Rebalance ExtentNode) (pt : ExtentPagetable) (phys_addr : ulong) (m : Machine)

/-- The nodes found next to a page touch it. -/
lemma touches_of_adjacent {root : Tree ExtentNode} {en : ExtentNode}
    (h : en ∈ extent_rb_find_all_adjacent root phys_addr) :
    phys_addr = en.ex.starting_phys_addr - 1 ∨ phys_addr = en.ex.ending_phys_addr + 1 := by
  cases List.mem_append.mp h with
  | inl left =>
    obtain ⟨_, _, ending⟩ := find_left_neighbor_sound (Option.mem_toList.mp left)
    rw [ExtentNode.hi] at ending
    exact .inr (by bv_omega)
  | inr right =>
    obtain ⟨_, start⟩ := find_by_start_sound (Option.mem_toList.mp right)
    exact .inl (by bv_omega)

/-- A page next to an extent gets its node with `GFP_KERNEL`. -/
lemma add_adjacent_sleeps {ex : Extent}
    (h : phys_addr = ex.starting_phys_addr - 1 ∨ phys_addr = ex.ending_phys_addr + 1) :
    MaySleep (extent_add_adjacent ex phys_addr) m := by
  by_cases start : phys_addr = ex.starting_phys_addr - 1
  · rw [extent_add_adjacent, if_pos start]
    exact (kmalloc_sleeps _ m).bind (Option.forall.mpr ⟨.pure _, fun _ => .pure _⟩)
  · rw [extent_add_adjacent, if_neg start, if_pos (h.resolve_left start)]
    exact (kmalloc_sleeps _ m).bind (Option.forall.mpr ⟨.pure _, fun _ => .pure _⟩)

/-- An insertion next to an extent may sleep. -/
lemma insert_beside_sleeps {adj : List ExtentNode} (some : adj ≠ []) (two : adj.length ≤ 2)
    (touches : ∀ en ∈ adj, phys_addr = en.ex.starting_phys_addr - 1 ∨
      phys_addr = en.ex.ending_phys_addr + 1) :
    MaySleep (insert_beside rb pt phys_addr adj) m := by
  have free : ∀ obj, Event.unlocked (.kfree obj) := fun _ => trivial
  match adj with
  | [adj0, adj1] =>
    by_cases ends : adj0.ex.ending_phys_addr = phys_addr - 1
    · simp only [insert_beside, insert_between, if_pos ends]
      refine (add_adjacent_sleeps phys_addr m (touches adj0 (by simp))).bind fun _ => ?_
      exact (calls_extent_merge free _ _).bind fun _ => (Calls.kfree free).bind fun _ => .pure _
    · simp only [insert_beside, insert_between, if_neg ends]
      refine (add_adjacent_sleeps phys_addr m (touches adj1 (by simp))).bind fun _ => ?_
      exact (calls_extent_merge free _ _).bind fun _ => (Calls.kfree free).bind fun _ => .pure _
  | [en] =>
    have sleeps := add_adjacent_sleeps phys_addr m (touches en (by simp))
    rw [insert_beside, insert_adjacent]
    split
    · exact sleeps.bind fun _ => .pure _
    · exact sleeps.bind fun _ => .pure _
  | [] => exact (some rfl).elim
  | _ :: _ :: _ :: _ => simp at two

/-- A new extent gets its page node with `GFP_KERNEL`. -/
lemma insert_new_sleeps (ok0 : m.kmalloc_ok 0) (ok1 : m.kmalloc_ok 1) :
    MaySleep (insert_new rb pt phys_addr) m := by
  refine .later [extent_alloc (some m.kmallocs)] (by simp [ok0, extent_alloc]) ?_
  simp only [kmalloc_apply, ok0, if_true]
  refine .later [node_alloc (some (m.kmallocs + 1))]
    (by simp [ok1, extent_alloc, node_alloc]) ?_
  simp only [kmalloc_apply, Machine.kmalloc_ok_after, extent_alloc, countP_kmalloc, List.countP_nil,
    Nat.zero_add, Nat.add_zero, ok1, if_true]
  have init : ∀ ex, MaySleep (extent_init ex phys_addr)
      ((m.after [.kmalloc .extent .GFP_ATOMIC (some m.kmallocs)]).after
        [node_alloc (some (m.kmallocs + 1))]) := by
    intro ex
    refine (kmalloc_sleeps _ _).bind fun res => ?_
    cases res with
    | none => exact .pure _
    | some first => exact .pure _
  exact (init _).bind fun _ => .pure _

/-- Without the extent and its tree node there is no page node. -/
lemma insert_new_harmless (fails : ¬(m.kmalloc_ok 0 ∧ m.kmalloc_ok 1)) :
    ∃ calls, (insert_new rb pt phys_addr m).2 = m.after calls ∧ ∀ c ∈ calls, c.harmless := by
  by_cases ok0 : m.kmalloc_ok 0
  · have ok1 : m.kmalloc_ok 1 = false := by simpa [ok0] using fails
    refine ⟨[extent_alloc (some m.kmallocs), node_alloc none, .kfree ⟨.extent, m.kmallocs⟩], ?_, ?_⟩
    · simp [insert_new, ok0, ok1, extent_alloc, node_alloc]
    · simp [extent_alloc, node_alloc, Event.harmless, Event.unlocked, Event.sleeps, Gfp.sleeps]
  · refine ⟨[extent_alloc none], ?_, ?_⟩
    · simp [insert_new, ok0, extent_alloc]
    · simp [extent_alloc, Event.harmless, Event.unlocked, Event.sleeps, Gfp.sleeps]

end Insertion

section Entries
variable (rb : Rebalance ExtentNode) (pt : ExtentPagetable) (m : Machine)

/-- The teardown returns, and makes no call that may sleep. -/
lemma destroy_safe : Entry.destroy.Safe rb pt m := by
  have present : ∀ en ∈ rb_first pt.root, ∃ x ∈ pt.root.inorder, x.at en.addr :=
    fun en h => ⟨en, List.mem_of_mem_head? h, by simp [ExtentNode.at]⟩
  obtain ⟨body, run, all⟩ := calls_destroy_loop rb pt.root.inorder.length pt.root (rb_first pt.root) []
    (m.after [.spin_lock_irqsave])
  have ends := destroy_loop_ends rb pt.root.inorder.length (rb_first pt.root) []
    (m.after [.spin_lock_irqsave]) present le_rfl
  obtain ⟨res, returned⟩ := Option.isSome_iff_exists.mp ends
  refine ⟨body, ?_, all⟩
  rw [Entry.call, extent_rb_destroy, with_lock_apply (Prod.ext returned run)]
  rfl

/-- A call that comes to no page node is safe. -/
lemma safe_of_skips {e : Entry} (h : e.skips_page_node pt m) : e.Safe rb pt m := by
  cases e with
  | insert_or_add phys_addr =>
    obtain ⟨none, fails⟩ := h
    rw [← m.kmalloc_ok_lock] at fails
    obtain ⟨body, run, all⟩ := insert_new_harmless rb pt phys_addr (m.after [.spin_lock_irqsave]) fails
    refine ⟨body, congrArg some (with_lock_calls ?_), all⟩
    rw [none]
    exact run
  | remove_page phys_addr =>
    obtain ⟨body, run, all⟩ := calls_remove_from rb pt phys_addr
      (extent_rb_find_containing pt.root phys_addr) (m.after [.spin_lock_irqsave])
    exact ⟨body, congrArg some (with_lock_calls run), all⟩
  | print pid => exact ⟨[], congrArg some (with_lock_calls (by simp)), by simp⟩
  | destroy => exact destroy_safe rb pt m

/-- An insertion that comes to a page node is not. -/
lemma insertion_sleeps {phys_addr : ulong} (h : ¬(Entry.insert_or_add phys_addr).skips_page_node pt m) :
    MaySleep (insert_beside rb pt phys_addr (extent_rb_find_all_adjacent pt.root phys_addr))
      (m.after [.spin_lock_irqsave]) := by
  by_cases none : extent_rb_find_all_adjacent pt.root phys_addr = []
  · have ok : m.kmalloc_ok 0 ∧ m.kmalloc_ok 1 := not_not.mp fun fails => h ⟨none, fails⟩
    rw [← m.kmalloc_ok_lock] at ok
    rw [none]
    exact insert_new_sleeps rb pt phys_addr _ ok.1 ok.2
  · refine insert_beside_sleeps rb pt phys_addr _ none ?_ fun en => touches_of_adjacent phys_addr
    have left := Option.length_toList_le (o := extent_rb_find_left_neighbor pt.root phys_addr)
    have right := Option.length_toList_le (o := extent_rb_find_by_start pt.root (phys_addr + 1))
    rw [extent_rb_find_all_adjacent, List.length_append]
    omega

/-- Whatever the table and the outcome of the allocations, every call returns, and takes and releases the
lock once. -/
theorem locks_once (e : Entry) :
    ∃ body, e.call rb pt m = some (m.after (locked body)) ∧ ∀ c ∈ body, c.unlocked := by
  have safe : ∀ e : Entry, e.skips_page_node pt m →
      ∃ body, e.call rb pt m = some (m.after (locked body)) ∧ ∀ c ∈ body, c.unlocked := by
    intro e skips
    obtain ⟨body, run, all⟩ := safe_of_skips rb pt m skips
    exact ⟨body, run, fun c mem => (all c mem).1⟩
  cases e with
  | insert_or_add phys_addr =>
    obtain ⟨body, run, all⟩ := calls_insert_beside rb pt phys_addr
      (extent_rb_find_all_adjacent pt.root phys_addr) (m.after [.spin_lock_irqsave])
    exact ⟨body, congrArg some (with_lock_calls run), all⟩
  | remove_page phys_addr => exact safe _ trivial
  | print pid => exact safe _ trivial
  | destroy => exact safe _ trivial

end Entries

/-- For every table, every call and every outcome of the allocations: the call takes and releases the lock
once and makes no allocation in between that may sleep, if and only if it comes to no page node. -/
theorem critical_iff (rb : Rebalance ExtentNode) (pt : ExtentPagetable) (m : Machine) (e : Entry) :
    e.Safe rb pt m ↔ e.skips_page_node pt m := by
  refine ⟨fun safe => ?_, safe_of_skips rb pt m⟩
  cases e with
  | insert_or_add phys_addr =>
    by_contra reaches
    obtain ⟨calls, run, c, mem, sleeps⟩ := insertion_sleeps rb pt m reaches
    obtain ⟨body, run', all⟩ := safe
    have same : locked body = locked calls :=
      after_inj (Option.some.inj (run'.symm.trans (congrArg some (with_lock_calls run))))
    exact (all c (locked_inj same ▸ mem)).2 sleeps
  | remove_page phys_addr => trivial
  | print pid => trivial
  | destroy => trivial

/-- A page that gets an extent of its own. -/
theorem not_critical : ¬∀ (rb : Rebalance ExtentNode) (pt : ExtentPagetable) (m : Machine) (e : Entry),
    e.Safe rb pt m := by
  intro all
  obtain ⟨body, run, safe⟩ := all .plain .empty (.boot fun _ => true) (.insert_or_add 5)
  have calls : (Entry.insert_or_add 5).call .plain .empty (.boot fun _ => true) =
      some ((Machine.boot fun _ => true).after
        (locked [extent_alloc (some 0), node_alloc (some 1), page_alloc (some 2)])) := rfl
  have same := locked_inj (after_inj (Option.some.inj (run.symm.trans calls)))
  subst same
  exact (safe (page_alloc (some 2)) (by simp)).2 rfl

end CS519.Extents
