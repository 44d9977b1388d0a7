import CS519.Extents.Insert

/-!
# What a removal does

The effect of `extent_rb_remove_page` on the in-order sequence of a well-formed table. `Removed` lists
the four ways in which a covered page is removed (with its whole extent, at the start, at the end, from
the middle) and `RemoveFailed` the three ways in which an allocation of the last one fails;
`remove_cases` says that there are no others, and `remove_absent` that nothing happens to a page that is
not covered.

The page lists after a trim or a split are given by the loops of the source (`trim_list`, `split_src`,
`split_right`), whatever the lists hold.
-/

namespace CS519.Extents
open Runs ExtentNode

section Loops

/-- The list after the loop of `extent_trim`. -/
def trim_list (pte : ulong) : List ExtentPage → List ExtentPage
  | [] => []
  | curr_page :: rest => if curr_page.page = pte then rest else curr_page :: rest

/-- The page node freed by the loop of `extent_trim`. -/
def trim_frees (pte : ulong) : List ExtentPage → List Event
  | [] => []
  | curr_page :: _ => if curr_page.page = pte then [.kfree ⟨.extent_page, curr_page.addr⟩] else []

/-- The list left to the split extent: what follows the node of the page. -/
def split_src (pte : ulong) (list : List ExtentPage) : List ExtentPage :=
  match list.find? (·.page = pte) with
  | none => list
  | some _ => list.drop (list.findIdx (·.page = pte) + 1)

/-- The list of the new right half: what precedes the node of the page. -/
def split_right (pte : ulong) (list : List ExtentPage) : List ExtentPage :=
  match list.find? (·.page = pte) with
  | none => []
  | some _ => list.take (list.findIdx (·.page = pte))

/-- The page node freed by the loop of `extent_split`. -/
def split_frees (pte : ulong) (list : List ExtentPage) : List Event :=
  match list.find? (·.page = pte) with
  | none => []
  | some curr_page => [.kfree ⟨.extent_page, curr_page.addr⟩]

/-- The loop of `extent_trim` looks at the first node only, and frees it if it is the page. -/
lemma extent_trim_loop_eq (pte : ulong) (list : List ExtentPage) (m : Machine) :
    extent_trim_loop pte list m = (trim_list pte list, m.after (trim_frees pte list)) := by
  cases list with
  | nil => simp [extent_trim_loop, trim_list, trim_frees]
  | cons c rest =>
    by_cases h : c.page = pte <;> simp [extent_trim_loop, trim_list, trim_frees, h]

/-- The loop of `extent_split` hands over the pages in front of the given one, and frees that. -/
lemma extent_split_loop_eq (pte : ulong) (list : List ExtentPage) (m : Machine) :
    extent_split_loop pte list [] m =
      ((split_src pte list, split_right pte list), m.after (split_frees pte list)) := by
  unfold extent_split_loop split_src split_right split_frees
  cases h : list.find? (·.page = pte) with
  | none => simp
  | some c =>
    have lt : list.findIdx (·.page = pte) < list.length := by
      refine List.findIdx_lt_length_of_exists ⟨c, List.mem_of_find?_eq_some h, ?_⟩
      simpa using List.find?_some h
    simp only [kern_bind, kfree_apply, kern_pure, list_cut_position, list_del]
    rw [List.eraseIdx_eq_take_drop_succ, List.take_take, Nat.min_eq_left (by omega),
      List.drop_take, Nat.sub_self, List.take_zero, List.append_nil]

end Loops

namespace Extent

/-- The extent after a trim of its last page. -/
@[simps] def drop_end (ex : Extent) (pte : ulong) : Extent :=
  { ex with
    ending_phys_addr := ex.ending_phys_addr - 1
    extent_pagelist := trim_list pte ex.extent_pagelist
    pgcount := ex.pgcount - 1 }

/-- The extent after a trim of its first page. -/
@[simps] def drop_start (ex : Extent) (pte : ulong) : Extent :=
  { ex with
    starting_phys_addr := ex.starting_phys_addr + 1
    extent_pagelist := trim_list pte ex.extent_pagelist
    pgcount := ex.pgcount - 1 }

/-- The extent after a split: the pages before `pte`. -/
@[simps] def left_half (ex : Extent) (pte : ulong) : Extent :=
  { ex with
    extent_pagelist := split_src pte ex.extent_pagelist
    pgcount := (pte - ex.starting_phys_addr).toNat
    ending_phys_addr := pte - 1 }

/-- The new extent after a split: the pages after `pte`. -/
@[simps] def right_half (ex : Extent) (addr : Nat) (pte : ulong) : Extent :=
  ⟨addr, split_right pte ex.extent_pagelist, (ex.ending_phys_addr - pte).toNat, pte + 1,
    ex.ending_phys_addr⟩

end Extent

section Helpers
variable (ex : Extent) (pte : ulong) (m : Machine)

/-- An extent loses its last page. -/
lemma extent_trim_end (h : pte = ex.ending_phys_addr) (c : 1 < ex.pgcount) :
    extent_trim ex pte m =
      ((0, ex.drop_end pte), m.after (trim_frees pte ex.extent_pagelist)) := by
  simp [extent_trim, extent_pte_is_start_or_end, h, c, extent_trim_loop_eq, Extent.drop_end]

/-- An extent loses its first page. -/
lemma extent_trim_start (h : pte = ex.starting_phys_addr) (n : pte ≠ ex.ending_phys_addr)
    (c : 1 < ex.pgcount) :
    extent_trim ex pte m =
      ((0, ex.drop_start pte), m.after (trim_frees pte ex.extent_pagelist)) := by
  subst h
  simp [extent_trim, extent_pte_is_start_or_end, n, c, extent_trim_loop_eq, Extent.drop_start]

/-- The trim of a last page changes no bound. -/
lemma extent_trim_last (h : pte = ex.starting_phys_addr) (c : ex.pgcount = 1) :
    extent_trim ex pte m =
      ((0, { ex with extent_pagelist := trim_list pte ex.extent_pagelist, pgcount := 0 }),
        m.after (trim_frees pte ex.extent_pagelist)) := by
  simp [extent_trim, extent_pte_is_start_or_end, h, c, extent_trim_loop_eq]

/-- Nothing of the buffer for the right half is kept but its address. -/
lemma extent_split_middle (buf : Extent) (h : extent_pte_contains ex pte)
    (n : extent_pte_is_start_or_end ex pte = false) :
    extent_split ex pte buf m =
      ((0, ex.left_half pte, ex.right_half buf.addr pte),
        m.after (split_frees pte ex.extent_pagelist)) := by
  simp [extent_split, h, n, extent_split_loop_eq, Extent.left_half, Extent.right_half]

end Helpers

section Bounds
variable {en : ExtentNode} {p : ulong}

/-- What is left behind the first page of an extent. -/
lemma drop_start_bounds (lt : en.lo < en.hi) :
    (⟨en.addr, en.ex.drop_start p⟩ : ExtentNode).lo = en.lo + 1 ∧
      (⟨en.addr, en.ex.drop_start p⟩ : ExtentNode).hi = en.hi := by
  simp only [ExtentNode.lo, ExtentNode.hi, Extent.drop_start] at lt ⊢
  exact ⟨by bv_omega, trivial⟩

/-- What is left before the last page of an extent. -/
lemma drop_end_bounds (lt : en.lo < en.hi) :
    (⟨en.addr, en.ex.drop_end p⟩ : ExtentNode).lo = en.lo ∧
      (⟨en.addr, en.ex.drop_end p⟩ : ExtentNode).hi + 1 = en.hi := by
  simp only [ExtentNode.lo, ExtentNode.hi, Extent.drop_end] at lt ⊢
  exact ⟨trivial, by bv_omega⟩

/-- The half before a page, on any node. -/
lemma left_half_bounds (addr : Nat) (lt : en.lo < p.toNat) :
    (⟨addr, en.ex.left_half p⟩ : ExtentNode).lo = en.lo ∧
      (⟨addr, en.ex.left_half p⟩ : ExtentNode).hi + 1 = p.toNat ∧
        (en.ex.left_half p).pgcount = (p.toNat : ℤ) - en.lo := by
  simp only [ExtentNode.lo, ExtentNode.hi, Extent.left_half] at lt ⊢
  have pages : (p - en.ex.starting_phys_addr).toNat = p.toNat - en.ex.starting_phys_addr.toNat := by
    bv_omega
  exact ⟨trivial, by bv_omega, by omega⟩

/-- The half behind a page, on any node. -/
lemma right_half_bounds (addr n : Nat) (gt : p.toNat < en.hi) :
    (⟨addr, en.ex.right_half n p⟩ : ExtentNode).lo = p.toNat + 1 ∧
      (⟨addr, en.ex.right_half n p⟩ : ExtentNode).hi = en.hi ∧
        (en.ex.right_half n p).pgcount = (en.hi : ℤ) - p.toNat := by
  simp only [ExtentNode.lo, ExtentNode.hi, Extent.right_half] at gt ⊢
  have pages : (en.ex.ending_phys_addr - p).toNat = en.ex.ending_phys_addr.toNat - p.toNat := by
    bv_omega
  exact ⟨by bv_omega, trivial, by omega⟩

end Bounds

/-- The removals of a covered page, with the trees before and after and the calls made. -/
inductive Removed (p : ulong) (n : Nat) (ok : Nat → Bool) (root root' : Tree ExtentNode) :
    List Event → Prop where
  | last {A e B} :
    root.inorder = A ++ e :: B → Covering p A e B → e.lo = e.hi →
    root'.inorder = A ++ B →
    Removed p n ok root root' (trim_frees p e.ex.extent_pagelist ++
      [.kfree ⟨.extent, e.ex.addr⟩, .kfree ⟨.extent_node, e.addr⟩])
  | start {A e B} :
    root.inorder = A ++ e :: B → Covering p A e B → e.lo = p.toNat → e.lo < e.hi →
    root'.inorder = A ++ { e with ex := e.ex.drop_start p } :: B →
    Removed p n ok root root' (trim_frees p e.ex.extent_pagelist)
  | ending {A e B} :
    root.inorder = A ++ e :: B → Covering p A e B → e.hi = p.toNat → e.lo < e.hi →
    root'.inorder = A ++ { e with ex := e.ex.drop_end p } :: B →
    Removed p n ok root root' (trim_frees p e.ex.extent_pagelist)
  | middle {A e B} :
    ok 0 → ok 1 → ok 2 →
    root.inorder = A ++ e :: B → Covering p A e B → e.lo < p.toNat → p.toNat < e.hi →
    root'.inorder = A ++ ⟨n + 1, e.ex.left_half p⟩ :: ⟨n + 2, e.ex.right_half n p⟩ :: B →
    Removed p n ok root root' (extent_alloc (some n) :: node_alloc (some (n + 1)) ::
      node_alloc (some (n + 2)) :: split_frees p e.ex.extent_pagelist ++
        [.kfree ⟨.extent_node, e.addr⟩])

/-- The removals from the middle of an extent in which an allocation fails. -/
inductive RemoveFailed (p : ulong) (n : Nat) (ok : Nat → Bool) (root : Tree ExtentNode) :
    List Event → Prop where
  | no_extent {A e B} :
    ok 0 = false →
    root.inorder = A ++ e :: B → Covering p A e B → e.lo < p.toNat → p.toNat < e.hi →
    RemoveFailed p n ok root [extent_alloc none]
  | no_left {A e B} :
    ok 0 → ok 1 = false →
    root.inorder = A ++ e :: B → Covering p A e B → e.lo < p.toNat → p.toNat < e.hi →
    RemoveFailed p n ok root [extent_alloc (some n), node_alloc none, .kfree ⟨.extent, n⟩]
  | no_right {A e B} :
    ok 0 → ok 1 → ok 2 = false →
    root.inorder = A ++ e :: B → Covering p A e B → e.lo < p.toNat → p.toNat < e.hi →
    RemoveFailed p n ok root
      [extent_alloc (some n), node_alloc (some (n + 1)), node_alloc none, .kfree ⟨.extent, n⟩,
        .kfree ⟨.extent_node, n + 1⟩]

section Shapes
variable (rb : Rebalance ExtentNode) {pt : ExtentPagetable} {p : ulong} (m : Machine)
variable {A B : List ExtentNode} {en : ExtentNode}

/-- A page at an end of its extent. -/
lemma remove_edge_cases (e : pt.root.inorder = A ++ en :: B) (cov : Covering p A en B)
    (wf : Wf pt.root.inorder)
    (edge : p = en.ex.starting_phys_addr ∨ p = en.ex.ending_phys_addr) :
    ∃ root calls, remove_edge rb pt p en m = ((0, ⟨root⟩), m.after calls) ∧
      Removed p m.kmallocs m.kmalloc_ok pt.root root calls := by
  have cnt := wf.counts en (by simp [e])
  have hs := cov.start
  have he := cov.ending
  simp only [ExtentNode.lo, ExtentNode.hi] at cnt hs he
  by_cases c : en.ex.pgcount = 1
  · -- the last page of the extent
    have s : p = en.ex.starting_phys_addr := by bv_omega
    refine ⟨_, _, ?_, .last e cov (by simp only [ExtentNode.lo, ExtentNode.hi]; omega)
      (inorder_erase_at rb wf.addrs e)⟩
    simp only [remove_edge, c, if_true, kern_bind, extent_trim_last _ _ _ s c, kfree_apply, kern_pure,
      Machine.after_after]
    rw [List.append_assoc]
    rfl
  · have c' : 1 < en.ex.pgcount := by omega
    have lt : en.lo < en.hi := by
      simp only [ExtentNode.lo, ExtentNode.hi]
      omega
    by_cases s : p = en.ex.starting_phys_addr
    · -- the node is taken out and put back under its new key
      have ne : p ≠ en.ex.ending_phys_addr := by bv_omega
      refine ⟨_, _, ?_, .start e cov (by simp only [ExtentNode.lo, s]) lt
        (inorder_rb_insert (x := { en with ex := en.ex.drop_start p }) rb
          (inorder_erase_at rb wf.addrs e) (fun a ha => ?_) fun b hb => ?_)⟩
      · simp only [remove_edge, if_neg c, if_pos s, kern_bind, extent_trim_start _ _ _ s ne c',
          kern_pure]
      · have h1 := cov.below a ha
        have h2 := wf.canonical.proper a (by simp [e, ha])
        have lo' := (drop_start_bounds (p := p) lt).1
        omega
      · have h1 := cov.above b hb
        have lo' := (drop_start_bounds (p := p) lt).1
        omega
    · have t : p = en.ex.ending_phys_addr := edge.resolve_left s
      refine ⟨_, _, ?_, .ending e cov (by simp only [ExtentNode.hi, t]) lt
        (inorder_set_ex wf.addrs e _)⟩
      simp only [remove_edge, if_neg c, if_neg s, kern_bind, extent_trim_end _ _ _ t c', kern_pure]

/-- A page inside its extent. -/
lemma remove_middle_cases (e : pt.root.inorder = A ++ en :: B) (cov : Covering p A en B)
    (wf : Wf pt.root.inorder) (ns : p ≠ en.ex.starting_phys_addr) (ne : p ≠ en.ex.ending_phys_addr) :
    ∃ root ret calls, remove_middle rb pt p en m = ((ret, ⟨root⟩), m.after calls) ∧
      ((Removed p m.kmallocs m.kmalloc_ok pt.root root calls ∧ ret = 0) ∨
        RemoveFailed p m.kmallocs m.kmalloc_ok pt.root calls ∧ ret = -ENOMEM ∧ root = pt.root) := by
  have hs := cov.start
  have he := cov.ending
  simp only [ExtentNode.lo, ExtentNode.hi] at hs he
  have lt : en.lo < p.toNat := by simp only [ExtentNode.lo]; bv_omega
  have gt : p.toNat < en.hi := by simp only [ExtentNode.hi]; bv_omega
  cases ok0 : m.kmalloc_ok 0 with
  | false =>
    refine ⟨_, _, [extent_alloc none], ?_, .inr ⟨.no_extent ok0 e cov lt gt, rfl, rfl⟩⟩
    simp [remove_middle, ok0, extent_alloc]
  | true =>
    cases ok1 : m.kmalloc_ok 1 with
    | false =>
      refine ⟨_, _, _, ?_, .inr ⟨.no_left ok0 ok1 e cov lt gt, rfl, rfl⟩⟩
      simp [remove_middle, ok0, ok1, extent_alloc, node_alloc]
    | true =>
      cases ok2 : m.kmalloc_ok 2 with
      | false =>
        refine ⟨_, _, _, ?_, .inr ⟨.no_right ok0 ok1 ok2 e cov lt gt, rfl, rfl⟩⟩
        simp [remove_middle, ok0, ok1, ok2, extent_alloc, node_alloc]
      | true =>
        have con : extent_pte_contains en.ex p := contains_iff.mpr ⟨hs, he⟩
        have mid : extent_pte_is_start_or_end en.ex p = false := by
          simp [extent_pte_is_start_or_end, ns, ne]
        obtain ⟨lo₁, _⟩ := left_half_bounds (m.kmallocs + 1) lt
        obtain ⟨lo₂, _⟩ := right_half_bounds (m.kmallocs + 2) m.kmallocs gt
        -- the left half goes where the extent was, and the right half after it
        have put1 := inorder_rb_insert (x := ⟨m.kmallocs + 1, en.ex.left_half p⟩) rb
          (inorder_erase_at rb wf.addrs e)
          (fun a ha => by
            have h1 := cov.below a ha
            have h2 := wf.canonical.proper a (by simp [e, ha])
            omega)
          (fun b hb => by
            have h1 := cov.above b hb
            omega)
        have put2 := inorder_rb_insert (A := A ++ [⟨m.kmallocs + 1, en.ex.left_half p⟩]) (B := B)
          (x := ⟨m.kmallocs + 2, en.ex.right_half m.kmallocs p⟩) rb (by rw [put1]; simp)
          (fun a ha => by
            cases List.mem_append.mp ha with
            | inl ha =>
              have h1 := cov.below a ha
              have h2 := wf.canonical.proper a (by simp [e, ha])
              omega
            | inr ha =>
              cases List.mem_singleton.mp ha
              omega)
          (fun b hb => by
            have h1 := cov.above b hb
            omega)
        refine ⟨_, 0, _, ?_, .inl ⟨.middle ok0 ok1 ok2 e cov lt gt (put2.trans (by simp)), rfl⟩⟩
        simp [remove_middle, ok0, ok1, ok2, extent_split_middle _ _ _ _ con mid, Extent.fresh,
          extent_alloc, node_alloc]

/-- The removal of a page that an extent covers succeeds in one of four ways or fails in one of three,
which leave the table as it was. -/
theorem remove_cases (wf : Wf pt.root.inorder) (hp : p ∈ pages pt.root.inorder) :
    ∃ root ret calls, extent_rb_remove_page rb pt p m = ((ret, ⟨root⟩), m.after (locked calls)) ∧
      ((Removed p m.kmallocs m.kmalloc_ok pt.root root calls ∧ ret = 0) ∨
        RemoveFailed p m.kmallocs m.kmalloc_ok pt.root calls ∧ ret = -ENOMEM ∧ root = pt.root) := by
  obtain ⟨A, en, B, e, cov⟩ := wf.split hp
  by_cases edge : p = en.ex.starting_phys_addr ∨ p = en.ex.ending_phys_addr
  · obtain ⟨root, calls, run, out⟩ :=
      remove_edge_cases rb (m.after [.spin_lock_irqsave]) e cov wf edge
    rw [m.kmallocs_lock, m.kmalloc_ok_lock] at out
    refine ⟨root, 0, calls, ?_, .inl ⟨out, rfl⟩⟩
    rw [extent_rb_remove_page, find_containing_eq wf.canonical e cov, remove_from, if_pos edge,
      with_lock_apply run]
  · obtain ⟨root, ret, calls, run, out⟩ :=
      remove_middle_cases rb (m.after [.spin_lock_irqsave]) e cov wf
        (fun h => edge (.inl h)) fun h => edge (.inr h)
    rw [m.kmallocs_lock, m.kmalloc_ok_lock] at out
    refine ⟨root, ret, calls, ?_, out⟩
    rw [extent_rb_remove_page, find_containing_eq wf.canonical e cov, remove_from, if_neg edge,
      with_lock_apply run]

/-- Nothing happens to a page that no extent covers. -/
theorem remove_absent (np : p ∉ pages pt.root.inorder) :
    extent_rb_remove_page rb pt p m = ((-EINVAL, pt), m.after (locked [])) := by
  rw [extent_rb_remove_page, find_containing_none np]
  exact with_lock_apply (by simp [remove_from])

end Shapes

end CS519.Extents
