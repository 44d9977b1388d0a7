import CS519.Extents.PageList

/-!
# Insertions in which an allocation fails

`extent_rb_insert_or_add` checks its own two allocations but drops the return codes of `extent_init` and
`extent_add_adjacent`, each of which allocates a page node. `Atomic` says that an insertion either
succeeds or returns `-ENOMEM` and has no effect; `insert_atomic_iff` says for which outcomes of the
allocations that is so, in each shape of the neighbourhood.
-/

namespace CS519.Extents
open Runs ExtentNode

/-- The representation invariant of a table: the extents are the maximal runs of their pages, their
counts and lists are right, a count fits a `long`, and the nodes are objects allocated earlier. -/
structure Rep (w : World) : Prop where
  wf : Wf w.nodes
  lists : ∀ en ∈ w.nodes, Enumerates en.lo en.hi en.ex.numbers
  fits : ∀ en ∈ w.nodes, en.ex.pgcount < 2 ^ 63
  fresh : ∀ en ∈ w.nodes, en.addr < w.m.kmallocs

/-- An extent ends right before the page or starts right after it. -/
def touched (l : List ExtentNode) (p : ulong) : Prop :=
  ∃ en ∈ l, en.hi + 1 = p.toNat ∨ en.lo = p.toNat + 1

/-- Some call of `kmalloc` returned `NULL`. -/
def alloc_failed (calls : List Event) : Prop := ∃ kind flags, Event.kmalloc kind flags none ∈ calls

/-- The insertion succeeds, or returns `-ENOMEM` and changes nothing; and it returns `-ENOMEM` if and only
if an allocation failed. -/
def Atomic (rb : Rebalance ExtentNode) (w : World) (p : ulong) : Prop :=
  ∃ ret pt calls, extent_rb_insert_or_add rb w.pt p w.m = ((ret, pt), w.m.after calls) ∧
    ((ret = 0 ∧ pt.root.inorder.countP (fun en => extent_pte_contains en.ex p) = 1 ∧
        (∃ en ∈ pt.root.inorder,
          extent_pte_contains en.ex p ∧ extent_pte_contains_foreach en.ex p) ∧
        pages w.nodes ⊆ pages pt.root.inorder) ∨
      ret = -ENOMEM ∧ pt = w.pt) ∧
    (ret = -ENOMEM ↔ alloc_failed calls)

section
variable {p : ulong} {A B l : List ExtentNode} {L R : Option ExtentNode}

/-- An extent touches the page exactly if there is a neighbour on the left or on the right. -/
lemma Located.touched_iff (loc : Located p A L R B) (proper : ∀ en ∈ A ++ L.toList ++ R.toList ++ B,
    en.lo ≤ en.hi) : touched (A ++ L.toList ++ R.toList ++ B) p ↔ L.toList ++ R.toList ≠ [] := by
  constructor
  · rintro ⟨en, mem, h⟩ none
    rw [List.append_assoc A, none, List.append_nil] at mem proper
    have le := proper en mem
    cases List.mem_append.mp mem with
    | inl mem =>
      have := loc.below en mem
      omega
    | inr mem =>
      have := loc.above en mem
      omega
  · intro some
    cases L with
    | some l => exact ⟨l, by simp, .inl (loc.left l rfl)⟩
    | none =>
      cases R with
      | some r => exact ⟨r, by simp, .inr (loc.right r rfl)⟩
      | none => simp at some

/-- A page of a well-formed table is covered once. -/
lemma Wf.covered_once (wf : Wf l) (hp : p ∈ pages l) :
    l.countP (fun en => extent_pte_contains en.ex p) = 1 := by
  obtain ⟨A, e, B, rfl, cov⟩ := wf.split hp
  have hs := cov.start
  have he := cov.ending
  have hA : A.countP (fun en => extent_pte_contains en.ex p) = 0 := by
    apply List.countP_eq_zero.mpr
    intro a ha c
    have := (contains_iff.mp c).2
    have := cov.below a ha
    simp only [ExtentNode.lo, ExtentNode.hi] at *
    omega
  have hB : B.countP (fun en => extent_pte_contains en.ex p) = 0 := by
    apply List.countP_eq_zero.mpr
    intro b hb c
    have := (contains_iff.mp c).1
    have := cov.above b hb
    simp only [ExtentNode.lo, ExtentNode.hi] at *
    omega
  rw [List.countP_append, List.countP_cons, hA, hB, if_pos (contains_iff.mpr ⟨hs, he⟩)]

variable {n : Nat} {ok : Nat → Bool} {root root' : Tree ExtentNode} {calls : List Event} {ret : Int}

/-- A successful insertion puts the page on the list of the extent that covers it. -/
lemma Inserted.on_list (ins : Inserted p n ok root root' calls) (wf : Wf root.inorder) :
    ∃ en ∈ root'.inorder, extent_pte_contains en.ex p ∧ extent_pte_contains_foreach en.ex p := by
  cases ins with
  | @new A B _ _ _ e loc e' =>
    refine ⟨_, by rw [e']; exact List.mem_append_right _ List.mem_cons_self, ?_, ?_⟩
    · exact contains_iff.mpr ⟨le_rfl, le_rfl⟩
    · simp [extent_pte_contains_foreach]
  | @left A l B _ e loc e' =>
    have hl := loc.left l rfl
    have le := wf.canonical.proper l (by simp [e])
    simp only [ExtentNode.lo, ExtentNode.hi] at hl le
    refine ⟨_, by rw [e']; exact List.mem_append_right _ List.mem_cons_self, ?_, ?_⟩
    · simp only [contains_iff, Extent.grow_end]
      omega
    · simp [extent_pte_contains_foreach]
  | @right A r B _ e loc e' =>
    have hr := loc.right r rfl
    have le := wf.canonical.proper r (by simp [e])
    simp only [ExtentNode.lo, ExtentNode.hi] at hr le
    refine ⟨_, by rw [e']; exact List.mem_append_right _ List.mem_cons_self, ?_, ?_⟩
    · simp only [contains_iff, Extent.grow_start]
      omega
    · simp [extent_pte_contains_foreach]
  | @between A l r B _ e loc e' =>
    have hl := loc.left l rfl
    have hr := loc.right r rfl
    have lel := wf.canonical.proper l (by simp [e])
    have ler := wf.canonical.proper r (by simp [e])
    simp only [ExtentNode.lo, ExtentNode.hi] at hl hr lel ler
    refine ⟨_, by rw [e']; exact List.mem_append_right _ List.mem_cons_self, ?_, ?_⟩
    · simp only [contains_iff, Extent.absorb, Extent.grow_end]
      omega
    · simp [extent_pte_contains_foreach]

/-- No allocation of a successful insertion failed. -/
lemma Inserted.allocated (ins : Inserted p n ok root root' calls) : ¬alloc_failed (locked calls) := by
  rintro ⟨kind, flags, mem⟩
  cases ins with
  | new => simp [locked, extent_alloc, node_alloc, page_alloc] at mem
  | left => simp [locked, page_alloc] at mem
  | right => simp [locked, page_alloc] at mem
  | between => simp [locked, page_alloc] at mem

/-- An allocation of a failed insertion failed. -/
lemma InsertFailed.failed (fail : InsertFailed p n ok root root' ret calls) :
    alloc_failed (locked calls) := by
  cases fail with
  | no_extent => exact ⟨_, _, by simp [locked, extent_alloc]; exact ⟨rfl, rfl⟩⟩
  | no_node => exact ⟨_, _, by simp [locked, node_alloc, extent_alloc]; exact ⟨rfl, rfl⟩⟩
  | no_page => exact ⟨_, _, by simp [locked, node_alloc, extent_alloc, page_alloc]; exact ⟨rfl, rfl⟩⟩
  | adjacent => exact ⟨_, _, by simp [locked, page_alloc]; exact ⟨rfl, rfl⟩⟩
  | between => exact ⟨_, _, by simp [locked, page_alloc]; exact .inl ⟨rfl, rfl⟩⟩

end

/-! ## Around the end of the address space

When page 0 is covered, its extent is taken for the right neighbour of the last page. -/

section Wrap
variable (rb : Rebalance ExtentNode) {pt : ExtentPagetable} {p : ulong} (m : Machine)
variable {root : Tree ExtentNode} {x : ExtentNode}

/-- What a call under the lock returns. -/
lemma with_lock_fst {α : Type} (body : Kern α) :
    (with_lock body m).1 = (body (m.after [.spin_lock_irqsave])).1 := rfl

/-- A node of the updated tree has the new extent, or was there before. -/
lemma mem_set_ex {addr : Nat} {ex : Extent} (h : x ∈ (set_ex addr ex root).inorder) :
    x.ex = ex ∨ x ∈ root.inorder := by
  rw [set_ex, Tree.inorder_map] at h
  obtain ⟨y, hy, rfl⟩ := List.mem_map.mp h
  by_cases e : y.addr = addr
  · exact .inl (by simp [e])
  · exact .inr (by simpa [e] using hy)

/-- A node that was put into the table does not cover the page if neither it nor any other one did. -/
lemma not_covered_insert {q : ExtentNode → Bool} {y : ExtentNode} (np : p ∉ pages root.inorder)
    (ny : y.ex.ending_phys_addr.toNat < p.toNat) :
    p ∉ pages (extent_rb_insert rb (rb.erase q root) y).inorder := by
  rintro ⟨x, mem, c⟩
  rw [extent_rb_insert, rb.inorder_insertColor] at mem
  rcases Tree.mem_inorder_link mem with rfl | mem
  · have := (contains_iff.mp c).2
    omega
  · rw [rb.inorder_erase] at mem
    exact np ⟨x, List.mem_of_mem_eraseP mem, c⟩

/-- The same of a node that was overwritten. -/
lemma not_covered_set {q : ExtentNode → Bool} {addr : Nat} {ex : Extent}
    (np : p ∉ pages root.inorder) (ny : ex.ending_phys_addr.toNat < p.toNat) :
    p ∉ pages (rb.erase q (set_ex addr ex root)).inorder := by
  rintro ⟨x, mem, c⟩
  rw [rb.inorder_erase] at mem
  rcases mem_set_ex (List.mem_of_mem_eraseP mem) with rfl | mem
  · have := (contains_iff.mp c).2
    omega
  · exact np ⟨x, mem, c⟩

/-- The last page of the address space, alone next to the extent of page 0. -/
lemma insert_wrap_alone {z : ExtentNode} (np : p ∉ pages pt.root.inorder)
    (wrap : p = z.ex.starting_phys_addr - 1) (apart : z.ex.ending_phys_addr.toNat < p.toNat) :
    (insert_adjacent rb pt p z m).1.1 = 0 ∧
      p ∉ pages (insert_adjacent rb pt p z m).1.2.root.inorder := by
  rw [insert_adjacent, if_pos wrap]
  cases ok0 : m.kmalloc_ok 0 with
  | false =>
    simp only [kern_bind, extent_add_adjacent_start _ _ _ wrap, ok0, Bool.false_eq_true, if_false,
      kern_pure, true_and]
    exact not_covered_insert rb np apart
  | true =>
    simp only [kern_bind, extent_add_adjacent_start _ _ _ wrap, ok0, if_true, kern_pure, true_and]
    exact not_covered_insert rb np apart

/-- The last page of the address space, between the extent before it and the extent of page 0. -/
lemma insert_wrap_between {l z : ExtentNode} (np : p ∉ pages pt.root.inorder)
    (left : l.ex.ending_phys_addr = p - 1) (wrap : p = z.ex.starting_phys_addr - 1)
    (apart : z.ex.ending_phys_addr.toNat + 1 < l.ex.starting_phys_addr.toNat)
    (le : l.ex.starting_phys_addr.toNat < p.toNat)
    (cl : 0 < l.ex.pgcount) (cz : 0 < z.ex.pgcount) :
    (insert_between rb pt p l z m).1.1 = 0 ∧
      p ∉ pages (insert_between rb pt p l z m).1.2.root.inorder := by
  have h1 : p = l.ex.ending_phys_addr + 1 := by bv_omega
  have h2 : p ≠ l.ex.starting_phys_addr - 1 := by bv_omega
  rw [insert_between, if_pos left]
  cases ok0 : m.kmalloc_ok 0 with
  | false =>
    have adj : extents_are_adjacent l.ex z.ex = false := by
      have n1 : l.ex.ending_phys_addr ≠ z.ex.starting_phys_addr - 1 := by bv_omega
      have n2 : z.ex.ending_phys_addr ≠ l.ex.starting_phys_addr - 1 := by bv_omega
      rw [extents_are_adjacent, decide_eq_false n1, decide_eq_false n2]
      rfl
    simp only [kern_bind, extent_add_adjacent_end _ _ _ h1 h2, ok0, Bool.false_eq_true, if_false,
      extent_merge_apart _ _ _ adj, kfree_apply, kern_pure, true_and]
    exact not_covered_set rb np (by bv_omega)
  | true =>
    have c1 : (l.ex.grow_end m.kmallocs p).pgcount ≠ 0 := by
      simp only [Extent.grow_end]
      omega
    simp only [kern_bind, extent_add_adjacent_end _ _ _ h1 h2, ok0, if_true,
      extent_merge_right _ _ _ wrap c1 cz.ne', kfree_apply, kern_pure, true_and]
    exact not_covered_set rb np (by simp only [Extent.absorb]; omega)

/-- The insertion of the last page, while page 0 is covered, returns 0 and covers nothing. -/
lemma insert_wrap (wf : Wf pt.root.inorder) (fits : ∀ en ∈ pt.root.inorder, en.ex.pgcount < 2 ^ 63)
    (np : p ∉ pages pt.root.inorder) (wrap : p + 1 = 0) (zero : (0 : ulong) ∈ pages pt.root.inorder) :
    (extent_rb_insert_or_add rb pt p m).1.1 = 0 ∧
      p ∉ pages (extent_rb_insert_or_add rb pt p m).1.2.root.inorder := by
  obtain ⟨A, L, R, B, e, loc⟩ := wf.locate np
  obtain ⟨z, mem, c⟩ := zero
  have start : z.ex.starting_phys_addr = 0 := by
    have := (contains_iff.mp c).1
    bv_omega
  have apart : z.ex.ending_phys_addr.toNat < p.toNat := by
    by_contra le
    refine np ⟨z, mem, contains_iff.mpr ?_⟩
    rw [start]
    bv_omega
  have last : p.toNat + 1 = 2 ^ 64 := by bv_omega
  have right := (find_by_start_iff wf.canonical).mpr ⟨mem, start.trans wrap.symm⟩
  have prev : p = z.ex.starting_phys_addr - 1 := by bv_omega
  rw [extent_rb_insert_or_add, with_lock_fst, extent_rb_find_all_adjacent, right,
    find_left_neighbor_eq wf.canonical e loc]
  cases L with
  | none => exact insert_wrap_alone rb _ np prev apart
  | some l =>
    have hl := loc.left l rfl
    have lmem : l ∈ pt.root.inorder := by simp [e]
    have le := wf.canonical.proper l lmem
    have cl := wf.counts l lmem
    have cz := wf.counts z mem
    have lz := wf.canonical.proper z mem
    have fl := fits l lmem
    simp only [ExtentNode.lo, ExtentNode.hi] at hl le cl cz lz
    have zl : z.ex.ending_phys_addr.toNat + 1 < l.ex.starting_phys_addr.toNat := by
      have ne : l ≠ z := by
        intro same
        have : l.ex.starting_phys_addr.toNat = 0 := by
          rw [same, start]
          rfl
        omega
      cases wf.canonical.apart lmem mem ne with
      | inl below =>
        simp only [ExtentNode.lo, ExtentNode.hi, start] at below
        omega
      | inr above => exact above
    exact insert_wrap_between rb _ np (by bv_omega) prev zl (by omega) (by omega) (by omega)

end Wrap

/-- The allocations succeed on which the insertion relies: the page node where an extent is extended, and
the page node of a new extent if the extent and its tree node were allocated. The last page of the
address space is out while page 0 is covered. -/
def allocates (w : World) (p : ulong) : Prop :=
  ¬(p + 1 = 0 ∧ (0 : ulong) ∈ pages w.nodes) ∧
    (touched w.nodes p → w.m.kmalloc_ok 0) ∧
    (¬touched w.nodes p → w.m.kmalloc_ok 0 → w.m.kmalloc_ok 1 → w.m.kmalloc_ok 2)

/-- A successful insertion is atomic. -/
lemma Inserted.atomic {rb : Rebalance ExtentNode} {w : World} {p : ulong} {root : Tree ExtentNode}
    {calls : List Event} (ins : Inserted p w.m.kmallocs w.m.kmalloc_ok w.pt.root root calls)
    (rep : Rep w)
    (run : extent_rb_insert_or_add rb w.pt p w.m = ((0, ⟨root⟩), w.m.after (locked calls))) :
    Atomic rb w p := by
  have cov := ins.pages rep.wf
  refine ⟨0, ⟨root⟩, locked calls, run, .inl ⟨rfl, ?_, ins.on_list rep.wf, ?_⟩, ?_⟩
  · exact (ins.wf rep.wf rep.fresh).covered_once (by rw [cov]; exact Set.mem_insert p _)
  · rw [cov]
    exact Set.subset_insert p _
  · exact ⟨fun h => by simp [ENOMEM] at h, fun failed => (ins.allocated failed).elim⟩

/-- An insertion that returns 0 although an allocation failed is not atomic. -/
lemma not_atomic {rb : Rebalance ExtentNode} {w : World} {p : ulong} {pt : ExtentPagetable}
    {calls : List Event} (run : extent_rb_insert_or_add rb w.pt p w.m = ((0, pt), w.m.after calls))
    (failed : alloc_failed calls) : ¬Atomic rb w p := by
  rintro ⟨ret, pt', calls', run', _, iff⟩
  rw [run] at run'
  obtain ⟨rfl, rfl⟩ : 0 = ret ∧ pt = pt' := by simpa using congrArg Prod.fst run'
  have same : calls = calls' := by
    have := congrArg (fun r => r.2.events) run'
    simpa using this
  have := iff.mpr (same ▸ failed)
  simp [ENOMEM] at this

/-- For a table that satisfies the representation invariant and a page that no extent covers, an insertion
is atomic exactly if the allocations succeed whose failure it ignores. -/
theorem insert_atomic_iff (rb : Rebalance ExtentNode) (w : World) (rep : Rep w) (p : ulong)
    (np : p ∉ pages w.nodes) : Atomic rb w p ↔ allocates w p := by
  by_cases wrap : p + 1 = 0 ∧ (0 : ulong) ∈ pages w.nodes
  · obtain ⟨zero, out⟩ := insert_wrap rb w.m rep.wf rep.fits np wrap.1 wrap.2
    refine iff_of_false ?_ fun al => al.1 wrap
    rintro ⟨ret, pt, calls, run, ⟨_, once, _⟩ | ⟨nomem, _⟩, _⟩
    · rw [run] at out
      obtain ⟨en, mem, c⟩ := List.countP_pos_iff.mp (by rw [once]; exact Nat.one_pos)
      exact out ⟨en, mem, c⟩
    · rw [run, nomem] at zero
      simp [ENOMEM] at zero
  · obtain ⟨root, ret, calls, run, out⟩ := insert_cases rb w.m rep.wf np fun last zero =>
      wrap ⟨last, zero⟩
    have proper := rep.wf.canonical.proper
    have touch : ∀ {A L R B}, w.pt.root.inorder = A ++ L.toList ++ R.toList ++ B →
        Located p A L R B → (touched w.nodes p ↔ L.toList ++ R.toList ≠ []) := by
      intro A L R B e loc
      rw [World.nodes, e] at proper ⊢
      exact loc.touched_iff proper
    rcases out with ⟨ins, rfl⟩ | fail
    · refine iff_of_true (ins.atomic rep run) ⟨wrap, ?_⟩
      cases ins with
      | new ok0 ok1 ok2 => exact ⟨fun _ => ok0, fun _ _ _ => ok2⟩
      | left ok0 e loc =>
        have t := (touch (L := some _) (R := none) (by simpa using e) loc).mpr (by simp)
        exact ⟨fun _ => ok0, fun n => (n t).elim⟩
      | right ok0 e loc =>
        have t := (touch (L := none) (R := some _) (by simpa using e) loc).mpr (by simp)
        exact ⟨fun _ => ok0, fun n => (n t).elim⟩
      | between ok0 e loc =>
        have t := (touch (L := some _) (R := some _) (by simpa using e) loc).mpr (by simp)
        exact ⟨fun _ => ok0, fun n => (n t).elim⟩
    · have failed := fail.failed
      cases fail with
      | no_extent ok0 e loc same =>
        have t := mt (touch (L := none) (R := none) (by simpa using e) loc).mp (by simp)
        subst same
        refine iff_of_true ⟨_, _, _, run, .inr ⟨rfl, rfl⟩, iff_of_true rfl failed⟩ ⟨wrap, ?_⟩
        exact ⟨fun h => (t h).elim, fun _ h => by simp [ok0] at h⟩
      | no_node ok0 ok1 e loc same =>
        have t := mt (touch (L := none) (R := none) (by simpa using e) loc).mp (by simp)
        subst same
        refine iff_of_true ⟨_, _, _, run, .inr ⟨rfl, rfl⟩, iff_of_true rfl failed⟩ ⟨wrap, ?_⟩
        exact ⟨fun h => (t h).elim, fun _ _ h => by simp [ok1] at h⟩
      | no_page ok0 ok1 ok2 e loc =>
        have t := mt (touch (L := none) (R := none) (by simpa using e) loc).mp (by simp)
        apply iff_of_false (not_atomic run failed)
        intro al
        have := al.2.2 t ok0 ok1
        simp [ok2] at this
      | adjacent ok0 e loc one =>
        have t := (touch e loc).mpr fun none => by simp [none] at one
        apply iff_of_false (not_atomic run failed)
        intro al
        have := al.2.1 t
        simp [ok0] at this
      | between ok0 e loc =>
        have t := (touch (L := some _) (R := some _) (by simpa using e) loc).mpr (by simp)
        apply iff_of_false (not_atomic run failed)
        intro al
        have := al.2.1 t
        simp [ok0] at this

/-- The empty table. -/
lemma Rep.start (ok : Nat → Bool) : Rep (World.start ok) where
  wf := .nil
  lists := by simp [World.start, World.nodes, ExtentPagetable.empty]
  fits := by simp [World.start, World.nodes, ExtentPagetable.empty]
  fresh := by simp [World.start, World.nodes, ExtentPagetable.empty]

/-- The table of the extents 3 and 9. One more allocation succeeds. -/
def two_extents : World := run (World.step .plain) (World.start (· < 7)) [.insert 3, .insert 9]

/-- This table has the invariant. -/
lemma rep_two_extents : Rep two_extents where
  wf := ⟨⟨by decide, by decide⟩, by decide, by decide⟩
  lists := by
    change ∀ en ∈ two_extents.nodes, en.ex.numbers.Perm (List.range' en.lo (en.hi + 1 - en.lo))
    decide
  fits := by decide
  fresh := by decide

/-- The allocation of the tree node for the page 6 fails, and both extents stay as they are. -/
theorem insert_atomic_no_node : Atomic .plain two_extents 6 := by
  have out : (6 : ulong) ∉ pages two_extents.nodes := by
    change ¬∃ en ∈ two_extents.nodes, extent_pte_contains en.ex 6
    decide
  have apart : ¬touched two_extents.nodes 6 := by
    change ¬∃ en ∈ two_extents.nodes, en.hi + 1 = 6 ∨ en.lo = 6 + 1
    decide
  refine (insert_atomic_iff .plain two_extents rep_two_extents 6 out).mpr ⟨?_, ?_, ?_⟩
  · exact fun h => absurd h.1 (by decide)
  · exact fun h => absurd h apart
  · exact fun _ _ h => absurd h (by decide)

/-- The allocation of the page node fails, and the page gets an extent with an empty list. -/
theorem not_insert_atomic :
    ¬∀ (rb : Rebalance ExtentNode) (w : World) (p : ulong), Rep w → p ∉ pages w.nodes →
      Atomic rb w p := by
  intro all
  have run : extent_rb_insert_or_add .plain (World.start (· < 2)).pt 5 (World.start (· < 2)).m =
      ((0, ⟨.node .red .nil ⟨1, .single 0 [] 5⟩ .nil⟩), (World.start (· < 2)).m.after
        (locked [extent_alloc (some 0), node_alloc (some 1), page_alloc none])) := rfl
  exact not_atomic run ⟨.extent_page, .GFP_KERNEL, by decide⟩
    (all .plain (World.start (· < 2)) 5 (.start _)
      (by simp [World.start, World.nodes, ExtentPagetable.empty]))

end CS519.Extents
