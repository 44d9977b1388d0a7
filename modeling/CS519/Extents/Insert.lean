import CS519.Extents.Search

/-!
# What an insertion does

The effect of `extent_rb_insert_or_add` on the in-order sequence of a well-formed table, for a page that
no extent covers. `Inserted` lists the four ways in which it succeeds, one for each shape of the
neighbourhood, and `InsertFailed` the ways in which an allocation fails on the way; `insert_cases` says
that there are no others. Both record the calls into the kernel.
-/

namespace CS519.Extents
open Runs ExtentNode

namespace Extent

/-- The extent with a page added after its last one. -/
@[simps] def grow_end (ex : Extent) (new : Nat) (pte : ulong) : Extent :=
  { ex with
    ending_phys_addr := pte
    extent_pagelist := ex.extent_pagelist ++ [⟨new, pte⟩]
    pgcount := ex.pgcount + 1 }

/-- The extent with a page added before its first one. -/
@[simps] def grow_start (ex : Extent) (new : Nat) (pte : ulong) : Extent :=
  { ex with
    starting_phys_addr := pte
    extent_pagelist := ⟨new, pte⟩ :: ex.extent_pagelist
    pgcount := ex.pgcount + 1 }

/-- The extent with the pages of its right neighbour. The neighbour's list goes in front. -/
@[simps] def absorb (ex right : Extent) : Extent :=
  { ex with
    extent_pagelist := right.extent_pagelist ++ ex.extent_pagelist
    pgcount := ex.pgcount + right.pgcount
    ending_phys_addr := right.ending_phys_addr }

/-- The extent with the pages of its left neighbour. The neighbour's list goes in front and is then
rotated to the back. -/
@[simps] def absorb_left (ex left : Extent) : Extent :=
  { ex with
    extent_pagelist :=
      list_rotate_left^[left.pgcount.toNat] (left.extent_pagelist ++ ex.extent_pagelist)
    pgcount := ex.pgcount + left.pgcount
    starting_phys_addr := left.starting_phys_addr }

/-- An extent of one page. -/
@[simps] def single (addr : Nat) (pagelist : List ExtentPage) (pte : ulong) : Extent :=
  ⟨addr, pagelist, 1, pte, pte⟩

end Extent

/-- A request for a page node and its outcome. -/
def page_alloc (res : Option Nat) : Event := .kmalloc .extent_page .GFP_KERNEL res

/-- A request for an extent and its outcome. -/
def extent_alloc (res : Option Nat) : Event := .kmalloc .extent .GFP_ATOMIC res

/-- A request for a tree node and its outcome. -/
def node_alloc (res : Option Nat) : Event := .kmalloc .extent_node .GFP_ATOMIC res

section Helpers
variable (ex : Extent) (pte : ulong) (m : Machine)

/-- An extent grows at its end by a page, or the allocation of the page node fails. -/
lemma extent_add_adjacent_end (h : pte = ex.ending_phys_addr + 1)
    (ne : pte ≠ ex.starting_phys_addr - 1) :
    extent_add_adjacent ex pte m =
      if m.kmalloc_ok 0 then
        ((0, ex.grow_end m.kmallocs pte), m.after [page_alloc (some m.kmallocs)])
      else ((-ENOMEM, ex), m.after [page_alloc none]) := by
  rw [extent_add_adjacent, if_neg ne, if_pos h]
  by_cases ok : m.kmalloc_ok 0 <;>
    simp [ok, page_alloc, Extent.grow_end, list_add_tail]

/-- An extent grows at its start by a page, or the allocation of the page node fails. -/
lemma extent_add_adjacent_start (h : pte = ex.starting_phys_addr - 1) :
    extent_add_adjacent ex pte m =
      if m.kmalloc_ok 0 then
        ((0, ex.grow_start m.kmallocs pte), m.after [page_alloc (some m.kmallocs)])
      else ((-ENOMEM, ex), m.after [page_alloc none]) := by
  rw [extent_add_adjacent, if_pos h]
  by_cases ok : m.kmalloc_ok 0 <;>
    simp [ok, page_alloc, Extent.grow_start, list_add]

/-- An extent of one page, which is not on the list if the allocation of the page node fails. -/
lemma extent_init_eq (addr : Nat) :
    extent_init (.fresh addr) pte m =
      if m.kmalloc_ok 0 then
        ((0, .single addr [⟨m.kmallocs, pte⟩] pte), m.after [page_alloc (some m.kmallocs)])
      else ((-ENOMEM, .single addr [] pte), m.after [page_alloc none]) := by
  rw [extent_init]
  by_cases ok : m.kmalloc_ok 0 <;>
    simp [ok, page_alloc, Extent.single, Extent.fresh, list_add]

/-- Merging with the extent that starts right after. -/
lemma extent_merge_right (right : Extent)
    (h : ex.ending_phys_addr = right.starting_phys_addr - 1)
    (c1 : ex.pgcount ≠ 0) (c2 : right.pgcount ≠ 0) :
    extent_merge ex right m =
      ((0, ex.absorb right, { right with pgcount := 0 }), m.after [.kfree ⟨.extent, right.addr⟩]) := by
  have adj : extents_are_adjacent ex right = true := by simp [extents_are_adjacent, h]
  simp [extent_merge, adj, h, c1, c2, extent_destroy, list_splice, list_for_each_entry_end,
    Extent.absorb]

/-- Merging with the extent that ends right before. -/
lemma extent_merge_left (left : Extent) (n : ex.ending_phys_addr ≠ left.starting_phys_addr - 1)
    (h : left.ending_phys_addr = ex.starting_phys_addr - 1)
    (c1 : ex.pgcount ≠ 0) (c2 : left.pgcount ≠ 0) :
    extent_merge ex left m =
      ((0, ex.absorb_left left, { left with pgcount := 0 }), m.after [.kfree ⟨.extent, left.addr⟩]) := by
  have adj : extents_are_adjacent ex left = true := by
    rw [extents_are_adjacent, decide_eq_false n, decide_eq_true h]
    rfl
  rw [extent_merge, adj, if_neg n, if_pos h]
  simp [c1, c2, extent_destroy, list_splice, list_for_each_entry_end, Extent.absorb_left]

/-- Extents that do not touch are not merged. -/
lemma extent_merge_apart (right : Extent) (h : extents_are_adjacent ex right = false) :
    extent_merge ex right m = ((-1, ex, right), m) := by
  simp [extent_merge, h]

end Helpers

section Sequence
variable {root : Tree ExtentNode} {A B : List ExtentNode} {x : ExtentNode}

/-- Distinct addresses around a node. -/
lemma addr_ne_of_nodup (nd : ((A ++ x :: B).map ExtentNode.addr).Nodup) :
    (∀ a ∈ A, a.addr ≠ x.addr) ∧ ∀ b ∈ B, b.addr ≠ x.addr := by
  rw [List.map_append, List.map_cons] at nd
  obtain ⟨_, ndB, cross⟩ := List.nodup_append.mp nd
  constructor
  · intro a ha
    exact cross _ (List.mem_map_of_mem ha) _ (by simp)
  · intro b hb e
    exact (List.nodup_cons.mp ndB).1 (e ▸ List.mem_map_of_mem hb)

/-- A write through the pointer to a node changes that node only. -/
lemma inorder_set_ex (nd : (root.inorder.map ExtentNode.addr).Nodup)
    (e : root.inorder = A ++ x :: B) (ex : Extent) :
    (set_ex x.addr ex root).inorder = A ++ { x with ex } :: B := by
  rw [e] at nd
  obtain ⟨neA, neB⟩ := addr_ne_of_nodup nd
  have hA : A.map (fun n => if n.addr = x.addr then { n with ex } else n) = A :=
    (List.map_congr_left fun a ha => if_neg (neA a ha)).trans (List.map_id A)
  have hB : B.map (fun n => if n.addr = x.addr then { n with ex } else n) = B :=
    (List.map_congr_left fun b hb => if_neg (neB b hb)).trans (List.map_id B)
  simp [set_ex, e, hA, hB]

/-- Erasing a node removes that node only. -/
lemma inorder_erase_at (rb : Rebalance ExtentNode) (nd : (root.inorder.map ExtentNode.addr).Nodup)
    (e : root.inorder = A ++ x :: B) :
    (rb.erase (ExtentNode.at x.addr) root).inorder = A ++ B := by
  rw [e] at nd
  obtain ⟨neA, _⟩ := addr_ne_of_nodup nd
  rw [rb.inorder_erase, e, List.eraseP_append_right _ (by simpa [ExtentNode.at] using neA),
    List.eraseP_cons_of_pos (by simp [ExtentNode.at])]

/-- Inserting a node puts it between the extents that start before it and those that start after. -/
lemma inorder_rb_insert (rb : Rebalance ExtentNode) (e : root.inorder = A ++ B)
    (hA : ∀ a ∈ A, a.lo ≤ x.lo) (hB : ∀ b ∈ B, x.lo < b.lo) :
    (extent_rb_insert rb root x).inorder = A ++ x :: B := by
  rw [extent_rb_insert, rb.inorder_insertColor]
  refine Tree.inorder_link e (fun a ha => ?_) fun b hb => ?_
  · simpa [ExtentNode.lo, BitVec.lt_def] using hA a ha
  · simpa [ExtentNode.lo, BitVec.lt_def] using hB b hb

end Sequence

/-- The successful insertions of a page that no extent covers, with the trees before and after and the
calls made. `n` is the number of allocations so far and `ok` the outcomes of the ones to come. -/
inductive Inserted (p : ulong) (n : Nat) (ok : Nat → Bool) (root root' : Tree ExtentNode) :
    List Event → Prop where
  | new {A B} :
    ok 0 → ok 1 → ok 2 →
    root.inorder = A ++ B → Located p A none none B →
    root'.inorder = A ++ ⟨n + 1, .single n [⟨n + 2, p⟩] p⟩ :: B →
    Inserted p n ok root root'
      [extent_alloc (some n), node_alloc (some (n + 1)), page_alloc (some (n + 2))]
  | left {A l B} :
    ok 0 →
    root.inorder = A ++ l :: B → Located p A (some l) none B →
    root'.inorder = A ++ { l with ex := l.ex.grow_end n p } :: B →
    Inserted p n ok root root' [page_alloc (some n)]
  | right {A r B} :
    ok 0 →
    root.inorder = A ++ r :: B → Located p A none (some r) B →
    root'.inorder = A ++ { r with ex := r.ex.grow_start n p } :: B →
    Inserted p n ok root root' [page_alloc (some n)]
  | between {A l r B} :
    ok 0 →
    root.inorder = A ++ l :: r :: B → Located p A (some l) (some r) B →
    root'.inorder = A ++ { l with ex := (l.ex.grow_end n p).absorb r.ex } :: B →
    Inserted p n ok root root'
      [page_alloc (some n), .kfree ⟨.extent, r.ex.addr⟩, .kfree ⟨.extent_node, r.addr⟩]

/-- The insertions on the way of which an allocation fails, with the return code. -/
inductive InsertFailed (p : ulong) (n : Nat) (ok : Nat → Bool) (root root' : Tree ExtentNode) :
    Int → List Event → Prop where
  | no_extent {A B} :
    ok 0 = false →
    root.inorder = A ++ B → Located p A none none B → root' = root →
    InsertFailed p n ok root root' (-ENOMEM) [extent_alloc none]
  | no_node {A B} :
    ok 0 → ok 1 = false →
    root.inorder = A ++ B → Located p A none none B → root' = root →
    InsertFailed p n ok root root' (-ENOMEM)
      [extent_alloc (some n), node_alloc none, .kfree ⟨.extent, n⟩]
  | no_page {A B} :
    ok 0 → ok 1 → ok 2 = false →
    root.inorder = A ++ B → Located p A none none B →
    root'.inorder = A ++ ⟨n + 1, .single n [] p⟩ :: B →
    InsertFailed p n ok root root' 0
      [extent_alloc (some n), node_alloc (some (n + 1)), page_alloc none]
  | adjacent {A B L R} :
    ok 0 = false →
    root.inorder = A ++ L.toList ++ R.toList ++ B → Located p A L R B →
    (L.toList ++ R.toList).length = 1 →
    root'.inorder = root.inorder →
    InsertFailed p n ok root root' 0 [page_alloc none]
  | between {A l r B ex c} :
    ok 0 = false →
    root.inorder = A ++ l :: r :: B → Located p A (some l) (some r) B →
    root'.inorder = A ++ { l with ex } :: B →
    extent_pte_contains ex p = false →
    InsertFailed p n ok root root' 0 (page_alloc none :: c ++ [.kfree ⟨.extent_node, r.addr⟩])

section Shapes
variable (rb : Rebalance ExtentNode) {pt : ExtentPagetable} {p : ulong} (m : Machine)
variable {A B : List ExtentNode}

/-- A page without neighbours. -/
lemma insert_new_cases (e : pt.root.inorder = A ++ B) (loc : Located p A none none B)
    (wf : Wf pt.root.inorder) :
    ∃ root ret calls, insert_new rb pt p m = ((ret, ⟨root⟩), m.after calls) ∧
      ((Inserted p m.kmallocs m.kmalloc_ok pt.root root calls ∧ ret = 0) ∨
        InsertFailed p m.kmallocs m.kmalloc_ok pt.root root ret calls) := by
  have put : ∀ list, (extent_rb_insert rb pt.root
      ⟨m.kmallocs + 1, .single m.kmallocs list p⟩).inorder =
        A ++ ⟨m.kmallocs + 1, .single m.kmallocs list p⟩ :: B := by
    intro list
    refine inorder_rb_insert rb e (fun a ha => ?_) fun b hb => ?_
    · have h1 := loc.below a ha
      have h2 := wf.canonical.proper a (by simp [e, ha])
      simp only [ExtentNode.lo, Extent.single] at h2 ⊢
      omega
    · have h1 := loc.above b hb
      simp only [ExtentNode.lo, Extent.single] at h1 ⊢
      omega
  cases ok0 : m.kmalloc_ok 0 with
  | false =>
    refine ⟨pt.root, -ENOMEM, [extent_alloc none], ?_, .inr (.no_extent ok0 e loc rfl)⟩
    simp [insert_new, ok0, extent_alloc]
  | true =>
    cases ok1 : m.kmalloc_ok 1 with
    | false =>
      refine ⟨pt.root, -ENOMEM, _, ?_, .inr (.no_node ok0 ok1 e loc rfl)⟩
      simp [insert_new, ok0, ok1, extent_alloc, node_alloc]
    | true =>
      cases ok2 : m.kmalloc_ok 2 with
      | false =>
        refine ⟨_, 0, _, ?_, .inr (.no_page ok0 ok1 ok2 e loc (put []))⟩
        simp [insert_new, ok0, ok1, ok2, extent_init_eq, extent_alloc, node_alloc, page_alloc]
      | true =>
        refine ⟨_, 0, _, ?_, .inl ⟨.new ok0 ok1 ok2 e loc (put [⟨m.kmallocs + 2, p⟩]), rfl⟩⟩
        simp [insert_new, ok0, ok1, ok2, extent_init_eq, extent_alloc, node_alloc, page_alloc]

/-- A page that only the extent before it touches. -/
lemma insert_left_cases {l : ExtentNode} (e : pt.root.inorder = A ++ l :: B)
    (loc : Located p A (some l) none B) (wf : Wf pt.root.inorder)
    (nowrap : p + 1 = 0 → (0 : ulong) ∉ pages pt.root.inorder) :
    ∃ root ret calls, insert_adjacent rb pt p l m = ((ret, ⟨root⟩), m.after calls) ∧
      ((Inserted p m.kmallocs m.kmalloc_ok pt.root root calls ∧ ret = 0) ∨
        InsertFailed p m.kmallocs m.kmalloc_ok pt.root root ret calls) := by
  have hl := loc.left l rfl
  have le := wf.canonical.proper l (by simp [e])
  simp only [ExtentNode.lo, ExtentNode.hi] at hl le
  have h1 : p = l.ex.ending_phys_addr + 1 := by bv_omega
  have h2 : p ≠ l.ex.starting_phys_addr - 1 := by
    -- an extent that reaches around from page 0 to the page before `p`
    intro c
    have zero : l.ex.starting_phys_addr = 0 := by bv_omega
    refine nowrap (by bv_omega) ⟨l, by simp [e], contains_iff.mpr ?_⟩
    simp [zero]
  have put := inorder_set_ex (x := l) wf.addrs e
  cases ok0 : m.kmalloc_ok 0 with
  | false =>
    refine ⟨_, 0, _, ?_, .inr (.adjacent (L := some l) (R := none) ok0 (by simpa using e) loc rfl
      ((put l.ex).trans e.symm))⟩
    simp only [insert_adjacent, if_neg h2, kern_bind, extent_add_adjacent_end _ _ _ h1 h2, ok0,
      Bool.false_eq_true, if_false, kern_pure]
  | true =>
    refine ⟨_, 0, _, ?_, .inl ⟨.left ok0 e loc (put _), rfl⟩⟩
    simp only [insert_adjacent, if_neg h2, kern_bind, extent_add_adjacent_end _ _ _ h1 h2, ok0,
      if_true, kern_pure]

/-- A page that only the extent after it touches. -/
lemma insert_right_cases {r : ExtentNode} (e : pt.root.inorder = A ++ r :: B)
    (loc : Located p A none (some r) B) (wf : Wf pt.root.inorder) :
    ∃ root ret calls, insert_adjacent rb pt p r m = ((ret, ⟨root⟩), m.after calls) ∧
      ((Inserted p m.kmallocs m.kmalloc_ok pt.root root calls ∧ ret = 0) ∨
        InsertFailed p m.kmallocs m.kmalloc_ok pt.root root ret calls) := by
  have hr := loc.right r rfl
  simp only [ExtentNode.lo] at hr
  have h1 : p = r.ex.starting_phys_addr - 1 := by bv_omega
  -- whether or not its first page has moved, the node goes back where it was
  have put : ∀ ex : Extent, ex.starting_phys_addr = p ∨ ex.starting_phys_addr = p + 1 →
      (extent_rb_insert rb (rb.erase (ExtentNode.at r.addr) pt.root) { r with ex }).inorder =
        A ++ { r with ex } :: B := by
    intro ex hex
    have hex' : p.toNat ≤ ex.starting_phys_addr.toNat ∧
        ex.starting_phys_addr.toNat ≤ p.toNat + 1 := by bv_omega
    refine inorder_rb_insert rb (inorder_erase_at rb wf.addrs e) (fun a ha => ?_) fun b hb => ?_
    · have h1 := loc.below a ha
      have h2 := wf.canonical.proper a (by simp [e, ha])
      simp only [ExtentNode.lo] at h2 ⊢
      omega
    · have h1 := loc.above b hb
      simp only [ExtentNode.lo] at h1 ⊢
      omega
  cases ok0 : m.kmalloc_ok 0 with
  | false =>
    refine ⟨_, 0, _, ?_, .inr (.adjacent (L := none) (R := some r) ok0 (by simpa using e) loc rfl
      ((put r.ex (.inr (by bv_omega))).trans e.symm))⟩
    simp only [insert_adjacent, if_pos h1, kern_bind, extent_add_adjacent_start _ _ _ h1, ok0,
      Bool.false_eq_true, if_false, kern_pure]
  | true =>
    refine ⟨_, 0, _, ?_, .inl ⟨.right ok0 e loc (put _ (.inl rfl)), rfl⟩⟩
    simp only [insert_adjacent, if_pos h1, kern_bind, extent_add_adjacent_start _ _ _ h1, ok0,
      if_true, kern_pure]

/-- Unlinking the right extent of a bridge after a write to the left one. -/
lemma inorder_between {l r : ExtentNode} (e : pt.root.inorder = A ++ l :: r :: B)
    (wf : Wf pt.root.inorder) (ex : Extent) :
    (rb.erase (ExtentNode.at r.addr) (set_ex l.addr ex pt.root)).inorder =
      A ++ { l with ex } :: B := by
  have e' := inorder_set_ex (x := l) wf.addrs e ex
  have nd : ((set_ex l.addr ex pt.root).inorder.map ExtentNode.addr).Nodup := by
    have := wf.addrs
    rw [e] at this
    simpa [e'] using this
  have e'' : (set_ex l.addr ex pt.root).inorder = (A ++ [{ l with ex }]) ++ r :: B := by
    rw [e']
    simp
  rw [inorder_erase_at rb nd e'']
  simp

/-- A page between two extents that both touch it. -/
lemma insert_between_cases {l r : ExtentNode} (e : pt.root.inorder = A ++ l :: r :: B)
    (loc : Located p A (some l) (some r) B) (wf : Wf pt.root.inorder) :
    ∃ root ret calls, insert_between rb pt p l r m = ((ret, ⟨root⟩), m.after calls) ∧
      ((Inserted p m.kmallocs m.kmalloc_ok pt.root root calls ∧ ret = 0) ∨
        InsertFailed p m.kmallocs m.kmalloc_ok pt.root root ret calls) := by
  have hl := loc.left l rfl
  have hr := loc.right r rfl
  have lel := wf.canonical.proper l (by simp [e])
  have ler := wf.canonical.proper r (by simp [e])
  have cl := wf.counts l (by simp [e])
  have cr := wf.counts r (by simp [e])
  simp only [ExtentNode.lo, ExtentNode.hi] at hl hr lel ler cl cr
  have h1 : p = l.ex.ending_phys_addr + 1 := by bv_omega
  have h2 : p ≠ l.ex.starting_phys_addr - 1 := by bv_omega
  have h3 : l.ex.ending_phys_addr = p - 1 := by bv_omega
  have c1 : l.ex.pgcount ≠ 0 := by omega
  have c2 : r.ex.pgcount ≠ 0 := by omega
  have put := inorder_between rb e wf
  cases ok0 : m.kmalloc_ok 0 with
  | false =>
    have n1 : l.ex.ending_phys_addr ≠ r.ex.starting_phys_addr - 1 := by bv_omega
    by_cases w : r.ex.ending_phys_addr = l.ex.starting_phys_addr - 1
    · -- the two extents touch around the end of the address space
      refine ⟨_, 0, _, ?_, .inr (.between (c := [.kfree ⟨.extent, r.ex.addr⟩]) ok0 e loc
        (put (l.ex.absorb_left r.ex)) ?_)⟩
      · simp only [insert_between, if_pos h3, kern_bind, extent_add_adjacent_end _ _ _ h1 h2, ok0,
          Bool.false_eq_true, if_false, extent_merge_left _ _ _ n1 w c1 c2, kfree_apply, kern_pure,
          Machine.after_after]
        rfl
      · rw [Bool.eq_false_iff, ne_eq, contains_iff]
        simp only [Extent.absorb_left]
        omega
    · have adj : extents_are_adjacent l.ex r.ex = false := by
        rw [extents_are_adjacent, decide_eq_false n1, decide_eq_false w]
        rfl
      refine ⟨_, 0, _, ?_, .inr (.between (c := []) ok0 e loc (put l.ex) ?_)⟩
      · simp only [insert_between, if_pos h3, kern_bind, extent_add_adjacent_end _ _ _ h1 h2, ok0,
          Bool.false_eq_true, if_false, extent_merge_apart _ _ _ adj, kfree_apply, kern_pure,
          Machine.after_after]
      · rw [Bool.eq_false_iff, ne_eq, contains_iff]
        omega
  | true =>
    refine ⟨_, 0, _, ?_, .inl ⟨.between ok0 e loc (put _), rfl⟩⟩
    have hm : (l.ex.grow_end m.kmallocs p).ending_phys_addr = r.ex.starting_phys_addr - 1 := by
      simp only [Extent.grow_end]
      bv_omega
    have c1' : (l.ex.grow_end m.kmallocs p).pgcount ≠ 0 := by
      simp only [Extent.grow_end]
      omega
    simp only [insert_between, if_pos h3, kern_bind, extent_add_adjacent_end _ _ _ h1 h2, ok0,
      if_true, extent_merge_right _ _ _ hm c1' c2, kfree_apply, kern_pure, Machine.after_after]
    rfl

/-- An insertion of a page that no extent covers succeeds in one of four ways or fails in one of five.
The last page of the address space is left out if page 0 is covered: it would be taken for its left
neighbour. -/
theorem insert_cases (wf : Wf pt.root.inorder) (np : p ∉ pages pt.root.inorder)
    (nowrap : p + 1 = 0 → (0 : ulong) ∉ pages pt.root.inorder) :
    ∃ root ret calls, extent_rb_insert_or_add rb pt p m = ((ret, ⟨root⟩), m.after (locked calls)) ∧
      ((Inserted p m.kmallocs m.kmalloc_ok pt.root root calls ∧ ret = 0) ∨
        InsertFailed p m.kmallocs m.kmalloc_ok pt.root root ret calls) := by
  obtain ⟨A, L, R, B, e, loc⟩ := wf.locate np
  have adj := find_all_adjacent_eq wf.canonical e loc nowrap
  have key : ∃ root ret calls,
      insert_beside rb pt p (L.toList ++ R.toList) (m.after [.spin_lock_irqsave]) =
        ((ret, ⟨root⟩), (m.after [.spin_lock_irqsave]).after calls) ∧
      ((Inserted p m.kmallocs m.kmalloc_ok pt.root root calls ∧ ret = 0) ∨
        InsertFailed p m.kmallocs m.kmalloc_ok pt.root root ret calls) := by
    rw [← m.kmallocs_lock, ← m.kmalloc_ok_lock]
    -- one case for each shape of the neighbourhood
    cases L with
    | none =>
      cases R with
      | none => exact insert_new_cases rb _ (by simpa using e) loc wf
      | some r => exact insert_right_cases rb _ (by simpa using e) loc wf
    | some l =>
      cases R with
      | none => exact insert_left_cases rb _ (by simpa using e) loc wf nowrap
      | some r => exact insert_between_cases rb _ (by simpa using e) loc wf
  obtain ⟨root, ret, calls, run, out⟩ := key
  exact ⟨root, ret, calls, by rw [extent_rb_insert_or_add, adj, with_lock_apply run], out⟩

end Shapes

end CS519.Extents
