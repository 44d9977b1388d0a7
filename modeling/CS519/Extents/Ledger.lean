import Mathlib.Algebra.BigOperators.Group.Multiset.Basic
import CS519.Extents.PageList

/-!
# The ledger of allocations

`allocs` and `frees` are the objects that a sequence of calls obtains from `kmalloc` and passes to
`kfree`; `owned` are those that hang off a table. `Ledger` is the conservation law between them: what was
allocated is freed, owned or lost, and only page nodes are ever lost. Objects are lost when
`extent_rb_remove_page` frees an extent whose list is not empty, and at the end `extent_rb_destroy` frees
tree nodes and extents but no page nodes. So nothing is freed twice, and everything is freed exactly if
every removal finds its page node and no page is left at the end (`balanced_iff`).
-/

namespace CS519.Extents
open Runs ExtentNode

section Objects

/-- The object that a call obtains. -/
def Event.obtained : Event → Option Obj
  | .kmalloc kind _ (some addr) => some ⟨kind, addr⟩
  | _ => none

/-- The object that a call gives back. -/
def Event.returned : Event → Option Obj
  | .kfree obj => some obj
  | _ => none

def allocs (calls : List Event) : Multiset Obj := calls.filterMap Event.obtained

def frees (calls : List Event) : Multiset Obj := calls.filterMap Event.returned

/-- The node of a page. -/
def ExtentPage.object (c : ExtentPage) : Obj := ⟨.extent_page, c.addr⟩

/-- The nodes of a page list. -/
def page_nodes (list : List ExtentPage) : Multiset Obj := list.map ExtentPage.object

/-- The objects of a tree node. -/
def ExtentNode.objects (en : ExtentNode) : Multiset Obj :=
  {⟨.extent_node, en.addr⟩} + {⟨.extent, en.ex.addr⟩} + page_nodes en.ex.extent_pagelist

/-- The objects of a table. -/
def owned (l : List ExtentNode) : Multiset Obj := (l.map objects).sum

def Obj.is_page (obj : Obj) : Prop := obj.kind = .extent_page

instance : DecidablePred Obj.is_page := fun obj => inferInstanceAs (Decidable (obj.kind = _))

variable {c d : List Event} {kind : Kind} {flags : Gfp} {addr : Nat} {obj : Obj}

/-- No call allocates nothing. -/
@[simp] lemma allocs_nil : allocs [] = 0 := rfl

/-- A successful allocation is one more. -/
@[simp] lemma allocs_kmalloc :
    allocs (.kmalloc kind flags (some addr) :: c) = {⟨kind, addr⟩} + allocs c := rfl

/-- A release allocates nothing. -/
@[simp] lemma allocs_kfree : allocs (.kfree obj :: c) = allocs c := rfl

/-- The allocations of calls in sequence. -/
@[simp] lemma allocs_append : allocs (c ++ d) = allocs c + allocs d := by
  simp [allocs]

/-- The lock allocates nothing. -/
@[simp] lemma allocs_locked : allocs (locked c) = allocs c := by
  change allocs (c ++ [.spin_unlock_irqrestore]) = allocs c
  rw [allocs_append]
  exact add_zero _

/-- No call frees nothing. -/
@[simp] lemma frees_nil : frees [] = 0 := rfl

/-- An allocation frees nothing. -/
@[simp] lemma frees_kmalloc {res : Option Nat} :
    frees (.kmalloc kind flags res :: c) = frees c := rfl

/-- A release frees its object. -/
@[simp] lemma frees_kfree : frees (.kfree obj :: c) = {obj} + frees c := rfl

/-- The releases of calls in sequence. -/
@[simp] lemma frees_append : frees (c ++ d) = frees c + frees d := by
  simp [frees]

/-- The lock frees nothing. -/
@[simp] lemma frees_locked : frees (locked c) = frees c := by
  change frees (c ++ [.spin_unlock_irqrestore]) = frees c
  rw [frees_append]
  exact add_zero _

/-- The empty list has no page nodes. -/
@[simp] lemma page_nodes_nil : page_nodes [] = 0 := rfl

/-- A page more is a page node more. -/
@[simp] lemma page_nodes_cons {x : ExtentPage} {list : List ExtentPage} :
    page_nodes (x :: list) = {⟨.extent_page, x.addr⟩} + page_nodes list := rfl

/-- The page nodes of two lists. -/
@[simp] lemma page_nodes_append {l₁ l₂ : List ExtentPage} :
    page_nodes (l₁ ++ l₂) = page_nodes l₁ + page_nodes l₂ := by
  simp [page_nodes]

/-- The empty table owns nothing. -/
@[simp] lemma owned_nil : owned [] = 0 := rfl

/-- A table owns what its nodes own. -/
@[simp] lemma owned_cons {en : ExtentNode} {l : List ExtentNode} :
    owned (en :: l) = en.objects + owned l := by
  simp [owned]

/-- What two parts of a table own. -/
@[simp] lemma owned_append {A B : List ExtentNode} : owned (A ++ B) = owned A + owned B := by
  simp [owned]

/-- The objects of a page list are page nodes. -/
lemma is_page_of_mem {list : List ExtentPage} (mem : obj ∈ page_nodes list) : obj.is_page := by
  obtain ⟨x, _, rfl⟩ := List.mem_map.mp (Multiset.mem_coe.mp mem)
  rfl

end Objects

section Steps
variable {p : ulong} {n : Nat} {ok : Nat → Bool} {root root' : Tree ExtentNode} {calls : List Event}

/-- A trim frees the node that it takes from the list. -/
lemma trim_conserves (list : List ExtentPage) :
    page_nodes list = frees (trim_frees p list) + page_nodes (trim_list p list) := by
  cases list with
  | nil => rfl
  | cons c rest =>
    by_cases h : c.page = p
    · simp [trim_list, trim_frees, h]
    · simp [trim_list, trim_frees, h]

/-- A split frees the node that it takes from the list. -/
lemma split_conserves (list : List ExtentPage) :
    page_nodes list =
      frees (split_frees p list) + page_nodes (split_src p list) + page_nodes (split_right p list) := by
  by_cases mem : p ∈ list.map (·.page)
  · obtain ⟨l₁, c, l₂, e, _, src, right, freed⟩ := split_parts mem
    rw [src, right, freed, e]
    simp only [page_nodes_append, page_nodes_cons, frees_kfree, frees_nil]
    abel
  · obtain ⟨src, right, freed⟩ := split_absent mem
    simp [src, right, freed]

/-- An insertion that succeeds loses nothing. -/
lemma Inserted.conserves (ins : Inserted p n ok root root' calls) :
    allocs calls + owned root.inorder = frees calls + owned root'.inorder := by
  cases ins with
  | new _ _ _ e _ e' =>
    rw [e, e']
    simp only [extent_alloc, node_alloc, page_alloc, allocs_kmalloc, allocs_nil, frees_kmalloc,
      frees_nil, owned_append, owned_cons, ExtentNode.objects, Extent.single, page_nodes_cons,
      page_nodes_nil]
    abel
  | left _ e _ e' =>
    rw [e, e']
    simp only [page_alloc, allocs_kmalloc, allocs_nil, frees_kmalloc, frees_nil, owned_append,
      owned_cons, ExtentNode.objects, Extent.grow_end, page_nodes_append, page_nodes_cons,
      page_nodes_nil]
    abel
  | right _ e _ e' =>
    rw [e, e']
    simp only [page_alloc, allocs_kmalloc, allocs_nil, frees_kmalloc, frees_nil, owned_append,
      owned_cons, ExtentNode.objects, Extent.grow_start, page_nodes_cons]
    abel
  | between _ e _ e' =>
    rw [e, e']
    simp only [page_alloc, allocs_kmalloc, allocs_kfree, allocs_nil, frees_kmalloc, frees_kfree,
      frees_nil, owned_append, owned_cons, ExtentNode.objects, Extent.grow_end, Extent.absorb,
      page_nodes_append, page_nodes_cons, page_nodes_nil]
    abel

/-- Trimming allocates nothing. -/
lemma allocs_trim (list : List ExtentPage) : allocs (trim_frees p list) = 0 := by
  cases list with
  | nil => rfl
  | cons c rest =>
    by_cases h : c.page = p
    · simp [trim_frees, h]
    · simp [trim_frees, h]

/-- The loop of a split allocates nothing. -/
lemma allocs_split (list : List ExtentPage) : allocs (split_frees p list) = 0 := by
  unfold split_frees
  cases list.find? (·.page = p) with
  | none => rfl
  | some c => rfl

/-- A removal loses page nodes only: those that are still on the list when the last page of an extent is
removed. -/
lemma Removed.conserves (rem : Removed p n ok root root' calls) :
    ∃ lost : Multiset Obj, (∀ o ∈ lost, o.is_page) ∧
      allocs calls + owned root.inorder = frees calls + owned root'.inorder + lost := by
  cases rem with
  | @last A e B h _ _ h' =>
    refine ⟨page_nodes (trim_list p e.ex.extent_pagelist), fun o mem => is_page_of_mem mem, ?_⟩
    rw [h, h']
    simp only [allocs_append, allocs_trim, allocs_kfree, allocs_nil, frees_append, frees_kfree,
      frees_nil, owned_append, owned_cons, ExtentNode.objects,
      trim_conserves (p := p) e.ex.extent_pagelist]
    abel
  | @start A e B h _ _ _ h' =>
    refine ⟨0, by simp, ?_⟩
    rw [h, h']
    simp only [allocs_trim, owned_append, owned_cons, ExtentNode.objects, Extent.drop_start,
      trim_conserves (p := p) e.ex.extent_pagelist]
    abel
  | @ending A e B h _ _ _ h' =>
    refine ⟨0, by simp, ?_⟩
    rw [h, h']
    simp only [allocs_trim, owned_append, owned_cons, ExtentNode.objects, Extent.drop_end,
      trim_conserves (p := p) e.ex.extent_pagelist]
    abel
  | @middle A e B _ _ _ h _ _ _ h' =>
    refine ⟨0, by simp, ?_⟩
    rw [h, h']
    simp only [extent_alloc, node_alloc, List.cons_append, allocs_kmalloc, allocs_append,
      allocs_split, allocs_kfree, allocs_nil, frees_kmalloc, frees_append, frees_kfree, frees_nil,
      owned_append, owned_cons, ExtentNode.objects, Extent.left_half, Extent.right_half,
      split_conserves (p := p) e.ex.extent_pagelist]
    abel

/-- New objects have new addresses. -/
lemma Inserted.numbered (ins : Inserted p n ok root root' calls) : (allocs calls).Nodup ∧
    ∀ o ∈ allocs calls, n ≤ o.addr ∧ o.addr < n + calls.countP Event.is_kmalloc := by
  cases ins with
  | new => simp [extent_alloc, node_alloc, page_alloc]
  | left => simp [page_alloc]
  | right => simp [page_alloc]
  | between => simp [page_alloc]

/-- New objects have new addresses. -/
lemma Removed.numbered (rem : Removed p n ok root root' calls) : (allocs calls).Nodup ∧
    ∀ o ∈ allocs calls, n ≤ o.addr ∧ o.addr < n + calls.countP Event.is_kmalloc := by
  cases rem with
  | last => simp [allocs_trim]
  | start => simp [allocs_trim]
  | ending => simp [allocs_trim]
  | middle => simp [extent_alloc, node_alloc, allocs_split]

/-- The walk over the list of an extent that removes a page finds the page's node: `extent_trim` looks at
the first one, `extent_split` at all of them. -/
def finds_node (en : ExtentNode) (p : ulong) : Prop :=
  if extent_pte_is_start_or_end en.ex p then en.ex.extent_pagelist.head?.map (·.page) = some p
  else extent_pte_contains_foreach en.ex p

instance (en : ExtentNode) (p : ulong) : Decidable (finds_node en p) :=
  inferInstanceAs (Decidable (if extent_pte_is_start_or_end en.ex p then
    en.ex.extent_pagelist.head?.map (·.page) = some p else extent_pte_contains_foreach en.ex p))

/-- The page nodes among some objects. -/
def page_count (s : Multiset Obj) : ℕ := s.countP Obj.is_page

/-- There are no page nodes among no objects. -/
@[simp] lemma page_count_zero : page_count 0 = 0 := rfl

/-- The page nodes of two collections. -/
@[simp] lemma page_count_add (s t : Multiset Obj) :
    page_count (s + t) = page_count s + page_count t :=
  Multiset.countP_add _ s t

/-- A page node is one. -/
@[simp] lemma page_count_page (a : Nat) : page_count {⟨.extent_page, a⟩} = 1 := rfl

/-- An extent is none. -/
@[simp] lemma page_count_extent (a : Nat) : page_count {⟨.extent, a⟩} = 0 := rfl

/-- A tree node is none. -/
@[simp] lemma page_count_node (a : Nat) : page_count {⟨.extent_node, a⟩} = 0 := rfl

/-- Trimming frees a page node exactly if the page heads the list. -/
lemma page_count_trim (list : List ExtentPage) : page_count (frees (trim_frees p list)) =
    if list.head?.map (·.page) = some p then 1 else 0 := by
  cases list with
  | nil => rfl
  | cons c rest =>
    by_cases h : c.page = p
    · simp [trim_frees, h]
    · simp [trim_frees, h]

/-- A split frees a page node exactly if the page is on the list. -/
lemma page_count_split (ex : Extent) : page_count (frees (split_frees p ex.extent_pagelist)) =
    if extent_pte_contains_foreach ex p then 1 else 0 := by
  have iff : extent_pte_contains_foreach ex p ↔ p ∈ ex.extent_pagelist.map (·.page) := by
    simp [extent_pte_contains_foreach]
  by_cases mem : p ∈ ex.extent_pagelist.map (·.page)
  · obtain ⟨l₁, c, l₂, _, _, _, _, freed⟩ := split_parts mem
    rw [freed, if_pos (iff.mpr mem)]
    rfl
  · rw [(split_absent mem).2.2, if_neg (mt iff.mp mem)]
    rfl

/-- An insertion obtains one page node. -/
lemma Inserted.page_count (ins : Inserted p n ok root root' calls) :
    page_count (allocs calls) = 1 ∧ page_count (frees calls) = 0 := by
  cases ins with
  | new => exact ⟨rfl, rfl⟩
  | left => exact ⟨rfl, rfl⟩
  | right => exact ⟨rfl, rfl⟩
  | between => exact ⟨rfl, rfl⟩

/-- A removal gives a page node back if it finds it. -/
lemma Removed.page_count (rem : Removed p n ok root root' calls) :
    ∃ en ∈ root.inorder, extent_pte_contains en.ex p ∧
      (∀ x ∈ root.inorder, extent_pte_contains x.ex p → x = en) ∧
      page_count (allocs calls) = 0 ∧
      page_count (frees calls) = if finds_node en p then 1 else 0 := by
  have edge : ∀ e : ExtentNode, e.lo = p.toNat ∨ e.hi = p.toNat →
      (finds_node e p ↔ e.ex.extent_pagelist.head?.map (·.page) = some p) := by
    intro e h
    rw [finds_node, if_pos (is_start_or_end_iff.mpr (h.symm.imp Eq.symm Eq.symm))]
  cases rem with
  | @last A e B h cov s _ =>
    have hs := cov.start
    have he := cov.ending
    refine ⟨e, by simp [h], contains_iff.mpr ⟨hs, he⟩, fun x mem => cov.unique (h ▸ mem), ?_⟩
    simp only [edge e (.inl (by omega)), allocs_append, allocs_trim, allocs_kfree, allocs_nil,
      frees_append, frees_kfree, frees_nil, page_count_add, page_count_zero, page_count_trim,
      page_count_extent, page_count_node, Nat.add_zero, true_and]
  | @start A e B h cov s _ _ =>
    refine ⟨e, by simp [h], contains_iff.mpr ⟨cov.start, cov.ending⟩,
      fun x mem => cov.unique (h ▸ mem), ?_⟩
    simp only [edge e (.inl s), allocs_trim, page_count_zero, page_count_trim, true_and]
  | @ending A e B h cov t _ _ =>
    refine ⟨e, by simp [h], contains_iff.mpr ⟨cov.start, cov.ending⟩,
      fun x mem => cov.unique (h ▸ mem), ?_⟩
    simp only [edge e (.inr t), allocs_trim, page_count_zero, page_count_trim, true_and]
  | @middle A e B _ _ _ h cov s t _ =>
    have inner : ¬extent_pte_is_start_or_end e.ex p := by
      rw [is_start_or_end_iff]
      simp only [ExtentNode.lo, ExtentNode.hi] at s t
      omega
    refine ⟨e, by simp [h], contains_iff.mpr ⟨cov.start, cov.ending⟩,
      fun x mem => cov.unique (h ▸ mem), ?_⟩
    simp only [finds_node, if_neg inner, extent_alloc, node_alloc, List.cons_append, allocs_kmalloc,
      allocs_append, allocs_split, allocs_kfree, allocs_nil, frees_kmalloc, frees_append,
      frees_kfree, frees_nil, page_count_add, page_count_zero, page_count_split, page_count_extent,
      page_count_node, Nat.add_zero, true_and]

end Steps

/-- The conservation law: what was allocated is freed, owned or lost. Only page nodes are lost, and the
page nodes that are not freed are those of the tracked pages and `k` others. -/
structure Ledger (w : World) (s : Finset ulong) (k : ℕ) (lost : Multiset Obj) : Prop where
  conserved : allocs w.m.events = frees w.m.events + owned w.nodes + lost
  lost_pages : ∀ o ∈ lost, o.is_page
  count : page_count (allocs w.m.events) = page_count (frees w.m.events) + s.card + k
  nodup : (allocs w.m.events).Nodup
  numbered : ∀ o ∈ allocs w.m.events, o.addr < w.m.kmallocs

/-- A removal of a covered page finds its page node. -/
def frees_node (w : World) : Op → Prop
  | .insert _ => True
  | .remove p => ∀ en ∈ w.nodes, extent_pte_contains en.ex p → finds_node en p

instance (w : World) : ∀ op, Decidable (frees_node w op)
  | .insert _ => inferInstanceAs (Decidable True)
  | .remove p => inferInstanceAs
      (Decidable (∀ en ∈ w.nodes, extent_pte_contains en.ex p → finds_node en p))

namespace Ledger
variable {w : World} {s t : Finset ulong} {k j : ℕ} {lost extra : Multiset Obj}

/-- At the start nothing has been allocated. -/
lemma start : Ledger (World.start fun _ => true) ∅ 0 0 where
  conserved := rfl
  lost_pages := by simp
  count := rfl
  nodup := Multiset.nodup_zero
  numbered o mem := (Multiset.notMem_zero o mem).elim

/-- The law after some more calls, from the law for these calls. -/
lemma extend (led : Ledger w s k lost) {root : Tree ExtentNode} {calls : List Event}
    (conserved : allocs calls + owned w.nodes = frees calls + owned root.inorder + extra)
    (lost_pages : ∀ o ∈ extra, o.is_page)
    (numbered : (allocs calls).Nodup ∧ ∀ o ∈ allocs calls,
      w.m.kmallocs ≤ o.addr ∧ o.addr < w.m.kmallocs + calls.countP Event.is_kmalloc)
    (count : page_count (allocs calls) + s.card + k = page_count (frees calls) + t.card + j) :
    Ledger ⟨⟨root⟩, w.m.after (locked calls)⟩ t j (lost + extra) where
  conserved := by
    simp only [Machine.events_after, allocs_append, allocs_locked, frees_append, frees_locked,
      World.nodes, led.conserved]
    calc frees w.m.events + owned w.nodes + lost + allocs calls
      _ = frees w.m.events + lost + (allocs calls + owned w.nodes) := by abel
      _ = frees w.m.events + lost + (frees calls + owned root.inorder + extra) := by rw [conserved]
      _ = frees w.m.events + frees calls + owned root.inorder + (lost + extra) := by abel
  lost_pages o mem := by
    cases Multiset.mem_add.mp mem with
    | inl mem => exact led.lost_pages o mem
    | inr mem => exact lost_pages o mem
  count := by
    have := led.count
    simp only [Machine.events_after, allocs_append, allocs_locked, frees_append, frees_locked,
      page_count_add]
    omega
  nodup := by
    simp only [Machine.events_after, allocs_append, allocs_locked]
    refine Multiset.nodup_add.mpr ⟨led.nodup, numbered.1, Multiset.disjoint_left.mpr ?_⟩
    intro o old new
    have := led.numbered o old
    have := (numbered.2 o new).1
    omega
  numbered o mem := by
    simp only [Machine.events_after, allocs_append, allocs_locked] at mem
    simp only [Machine.kmallocs_after, countP_locked]
    cases Multiset.mem_add.mp mem with
    | inl mem =>
      have := led.numbered o mem
      omega
    | inr mem => exact (numbered.2 o mem).2

/-- An admitted call keeps the law; `k` counts the removals that do not find their page node. -/
lemma step (rb : Rebalance ExtentNode) {op : Op} (admitted : op.untracked s ∧ op.nowrap s)
    (ref : Refines w s) (led : Ledger w s k lost) :
    ∃ lost', Ledger (w.step rb op) (track s op) (if frees_node w op then k else k + 1) lost' := by
  cases op with
  | insert p =>
    obtain ⟨root, calls, run, ins⟩ := ref.inserted rb admitted.1 admitted.2
    have card : (insert p s).card = s.card + 1 := Finset.card_insert_of_notMem admitted.1
    have free : frees_node w (.insert p) := trivial
    simp only [World.step, run, track, if_pos free]
    refine ⟨lost + 0, led.extend (ins.conserves.trans (add_zero _).symm) (by simp) ins.numbered ?_⟩
    rw [ins.page_count.1, ins.page_count.2, card]
    omega
  | remove p =>
    by_cases hp : p ∈ s
    · obtain ⟨root, calls, run, rem⟩ := ref.removed rb hp
      obtain ⟨extra, pages, conserved⟩ := rem.conserves
      obtain ⟨en, mem, covers, only, none, some⟩ := rem.page_count
      have card : (s.erase p).card + 1 = s.card := Finset.card_erase_add_one hp
      have finds : frees_node w (.remove p) ↔ finds_node en p :=
        ⟨fun all => all en mem covers, fun found x hx c => only x hx c ▸ found⟩
      simp only [World.step, run, track]
      refine ⟨lost + extra, led.extend conserved pages rem.numbered ?_⟩
      rw [none, some]
      by_cases found : finds_node en p
      · rw [if_pos found, if_pos (finds.mpr found)]
        omega
      · rw [if_neg found, if_neg (mt finds.mp found)]
        omega
    · have np := mt (ref.mem p).mp hp
      have free : frees_node w (.remove p) := fun en mem c => (np ⟨en, mem, c⟩).elim
      simp only [World.step, remove_absent rb w.m np, track, Finset.erase_eq_of_notMem hp, if_pos free]
      exact ⟨lost + 0, led.extend (by simp [World.nodes]) (by simp) (by simp) (by simp)⟩

end Ledger

section Destroy
variable (rb : Rebalance ExtentNode)

/-- The calls of the teardown loop. -/
def teardown (l : List ExtentNode) : List Event :=
  l.flatMap fun en => [.kfree ⟨.extent, en.ex.addr⟩, .kfree ⟨.extent_node, en.addr⟩]

/-- A tree without nodes is the empty one. -/
lemma nil_of_inorder {t : Tree ExtentNode} (h : t.inorder = []) : t = .nil := by
  cases t with
  | nil => rfl
  | node c l a r => simp at h

/-- The node after the first one. -/
lemma rb_next_head {root : Tree ExtentNode} {en : ExtentNode} {l : List ExtentNode}
    (e : root.inorder = en :: l) : rb_next root en = l.head? := by
  simp [rb_next, e, ExtentNode.at]

/-- The loop visits the nodes in order and erases every one. -/
lemma destroy_loop_eq (l : List ExtentNode) : ∀ {root : Tree ExtentNode} {fuel : Nat}
    (visited : List ExtentNode) (m : Machine), root.inorder = l → l.length ≤ fuel →
      destroy_loop rb fuel root l.head? visited m = (some (.nil, visited ++ l), m.after (teardown l)) := by
  induction l with
  | nil =>
    intro root fuel visited m e _
    rw [nil_of_inorder e]
    cases fuel with
    | zero => simp [destroy_loop, teardown]
    | succ fuel => simp [destroy_loop, teardown]
  | cons en l ih =>
    intro root fuel visited m e le
    cases fuel with
    | zero => simp at le
    | succ fuel =>
      have e' : (rb.erase (ExtentNode.at en.addr) root).inorder = l := by
        rw [rb.inorder_erase, e, List.eraseP_cons_of_pos (by simp [ExtentNode.at])]
      simp only [List.head?_cons, destroy_loop, rb_next_head e, kern_bind, kfree_apply]
      rw [ih _ _ e' (by simpa using le)]
      simp [teardown]

/-- The teardown of a table visits its nodes in order and leaves no node. -/
lemma extent_rb_destroy_eq {w : World} {fuel : Nat} (le : w.nodes.length ≤ fuel) :
    extent_rb_destroy rb fuel w.pt w.m =
      (some (.nil, w.nodes), w.m.after (locked (teardown w.nodes))) :=
  with_lock_apply (destroy_loop_eq rb _ [] _ rfl le)

/-- The teardown frees the tree nodes and the extents, but no page nodes. -/
lemma teardown_conserves (l : List ExtentNode) :
    ∃ pages : Multiset Obj, (∀ o ∈ pages, o.is_page) ∧
      owned l = frees (teardown l) + pages ∧ page_count (frees (teardown l)) = 0 ∧
      allocs (teardown l) = 0 := by
  induction l with
  | nil => exact ⟨0, by simp, by simp [teardown], rfl, rfl⟩
  | cons en l ih =>
    obtain ⟨pages, all, e, none, no⟩ := ih
    have cons : teardown (en :: l) = .kfree ⟨.extent, en.ex.addr⟩ :: .kfree ⟨.extent_node, en.addr⟩ ::
        teardown l := rfl
    refine ⟨page_nodes en.ex.extent_pagelist + pages, fun o mem => ?_, ?_, ?_, ?_⟩
    · cases Multiset.mem_add.mp mem with
      | inl mem => exact is_page_of_mem mem
      | inr mem => exact all o mem
    · rw [owned_cons, e, cons, frees_kfree, frees_kfree, ExtentNode.objects]
      abel
    · rw [cons, frees_kfree, frees_kfree, page_count_add, page_count_add, none]
      rfl
    · rw [cons, allocs_kfree, allocs_kfree, no]

/-- The history and the teardown after it: every node is visited once, nothing is freed twice, and
everything that was allocated is freed. -/
def Balanced (h : List Op) : Prop :=
  let w := World.after rb (fun _ => true) h
  ∀ fuel, w.nodes.length ≤ fuel → ∃ m, extent_rb_destroy rb fuel w.pt w.m = (some (.nil, w.nodes), m) ∧
    w.nodes.Nodup ∧ (frees m.events).Nodup ∧ ∀ o ∈ allocs m.events, o ∈ frees m.events

/-- What the ledger says after the teardown. -/
lemma Ledger.destroy {w : World} {s : Finset ulong} {k : ℕ} {lost : Multiset Obj}
    (led : Ledger w s k lost) {m : Machine} (e : m = w.m.after (locked (teardown w.nodes))) :
    (frees m.events).Nodup ∧
      ((∀ o ∈ allocs m.events, o ∈ frees m.events) ↔ s = ∅ ∧ k = 0) := by
  obtain ⟨pages, all, own, none, no⟩ := teardown_conserves w.nodes
  -- what is not freed are page nodes, one for each tracked page and `k` others
  have rest : ∃ rest : Multiset Obj, (∀ o ∈ rest, o.is_page) ∧
      allocs m.events = frees m.events + rest ∧ Multiset.card rest = s.card + k := by
    have conserved : allocs m.events = frees m.events + (pages + lost) := by
      simp only [e, Machine.events_after, allocs_append, allocs_locked, no, frees_append,
        frees_locked, led.conserved, own]
      abel
    have are_pages : ∀ o ∈ pages + lost, o.is_page := by
      intro o mem
      cases Multiset.mem_add.mp mem with
      | inl mem => exact all o mem
      | inr mem => exact led.lost_pages o mem
    refine ⟨pages + lost, are_pages, conserved, ?_⟩
    have count := congrArg page_count conserved
    have only : page_count (pages + lost) = Multiset.card (pages + lost) :=
      Multiset.countP_eq_card.mpr are_pages
    have := led.count
    rw [page_count_add, only] at count
    simp only [e, Machine.events_after, allocs_append, allocs_locked, no, frees_append, frees_locked,
      page_count_add, none, page_count_zero] at count
    omega
  obtain ⟨rest, _, conserved, card⟩ := rest
  have nodup : (frees m.events + rest).Nodup := by
    rw [← conserved]
    simpa [e, no] using led.nodup
  obtain ⟨nf, _, disjoint⟩ := Multiset.nodup_add.mp nodup
  refine ⟨nf, ?_⟩
  rw [conserved]
  constructor
  · intro freed
    have empty : rest = 0 := by
      apply Multiset.eq_zero_of_forall_notMem
      intro o mem
      exact Multiset.disjoint_left.mp disjoint (freed o (by simp [mem])) mem
    rw [empty, Multiset.card_zero] at card
    exact ⟨Finset.card_eq_zero.mp (by omega), by omega⟩
  · rintro ⟨rfl, rfl⟩
    have empty : rest = 0 := Multiset.card_eq_zero.mp (by simpa using card)
    simp [empty]

/-- The law after a history. Every removal that does not find its page node leaves one more behind. -/
lemma Ledger.run {h : List Op} : ∀ {w : World} {s : Finset ulong} {k : ℕ} {lost : Multiset Obj},
    Refines w s → Ledger w s k lost → Always track (fun s op => op.untracked s ∧ op.nowrap s) s h →
      ∃ j lost', Ledger (CS519.run (World.step rb) w h) (CS519.run track s h) j lost' ∧
        (j = 0 ↔ k = 0 ∧ Always (World.step rb) frees_node w h) := by
  induction h with
  | nil => exact fun {w s k lost} _ led _ => ⟨k, lost, led, by simp [Always]⟩
  | cons op h ih =>
    intro w s k lost ref led legal
    obtain ⟨lost', led'⟩ := led.step rb legal.1 ref
    obtain ⟨j, lost'', led'', iff⟩ := ih (step_refines rb legal.1 ref) led' legal.2
    refine ⟨j, lost'', led'', iff.trans ?_⟩
    by_cases free : frees_node w op
    · simp [Always, free]
    · simp [Always, free]

/-- In a history that inserts untracked pages and does not wrap, nothing is freed twice and the teardown
visits every node once. Everything is freed exactly if no page is tracked at the end and every removal
found its page node. -/
theorem balanced_iff (h : List Op) (legal : Legal h) :
    (let w := World.after rb (fun _ => true) h
      ∀ fuel, w.nodes.length ≤ fuel → ∃ m, extent_rb_destroy rb fuel w.pt w.m =
        (some (.nil, w.nodes), m) ∧ w.nodes.Nodup ∧ (frees m.events).Nodup) ∧
    (Balanced rb h ↔
      tracked h = ∅ ∧ Always (World.step rb) frees_node (World.start fun _ => true) h) := by
  obtain ⟨j, lost, led, iff⟩ := Ledger.run rb Refines.start Ledger.start legal
  have nodup : (World.after rb (fun _ => true) h).nodes.Nodup :=
    (refines_after rb legal).wf.addrs.of_map _
  have destroy := led.destroy rfl
  constructor
  · exact fun fuel le => ⟨_, extent_rb_destroy_eq rb le, nodup, destroy.1⟩
  · constructor
    · intro balanced
      obtain ⟨m, run, _, _, all⟩ := balanced _ le_rfl
      rw [extent_rb_destroy_eq rb le_rfl] at run
      rw [← (Prod.mk.inj run).2] at all
      obtain ⟨empty, zero⟩ := destroy.2.mp all
      exact ⟨empty, (iff.mp zero).2⟩
    · intro ⟨empty, free⟩ fuel le
      exact ⟨_, extent_rb_destroy_eq rb le, nodup, destroy.1,
        destroy.2.mpr ⟨empty, iff.mpr ⟨rfl, free⟩⟩⟩

end Destroy

/-- Two pages are removed in the order in which they stand on the list. -/
theorem balanced_iff_removed : Balanced .plain [.insert 1, .insert 2, .remove 1, .remove 2] :=
  (balanced_iff .plain [.insert 1, .insert 2, .remove 1, .remove 2] (by decide)).2.mpr
    ⟨by decide, by decide⟩

/-- The teardown of a table with one page does not free the page's node. -/
theorem not_balanced : ¬∀ rb h, Untracked h → Balanced rb h := by
  intro all
  obtain ⟨m, run, _, _, freed⟩ := all .plain [.insert 5] (by decide) 1 (by decide)
  rw [extent_rb_destroy_eq .plain (by decide)] at run
  rw [← (Prod.mk.inj run).2] at freed
  exact absurd (freed ⟨.extent_page, 2⟩ (by decide)) (by decide)

end CS519.Extents
