import CS519.Enumerate
import CS519.Extents.Canonical

/-!
# Bounds against page lists

An extent holds its pages twice, as bounds with a count and as a list. Growing and bridging keep the two
in step (`Inserted.filled`), but `extent_trim` looks at the first node of the list only, and
`extent_split` hands the two parts of the list to the wrong halves. So the two copies agree exactly as
long as every page is removed at an end of its extent and from the head of its list (`lists_agree_iff`).
-/

namespace CS519.Extents
open Runs ExtentNode

/-- The page numbers on the list of an extent. -/
def Extent.numbers (ex : Extent) : List ℕ := ex.extent_pagelist.map (·.page.toNat)

/-- The list of a node's extent holds the pages of the range, in an order in which no page separates the
smaller ones from the greater ones. -/
structure Filled (en : ExtentNode) : Prop where
  enumerates : Enumerates en.lo en.hi en.ex.numbers
  bridged : Bridged en.lo en.ex.numbers

/-- The range test and the walk over the list agree, and so do the count and the length. -/
def lists_agree (en : ExtentNode) : Prop :=
  (∀ x, extent_pte_contains en.ex x = extent_pte_contains_foreach en.ex x) ∧
    (en.ex.extent_pagelist.length : ℤ) = en.ex.pgcount

/-- The removal of a covered page is of the first or last page of its extent, and of the first one on its
list. -/
def removes_first (w : World) : Op → Prop
  | .insert _ => True
  | .remove p => ∀ en ∈ w.nodes, extent_pte_contains en.ex p →
      extent_pte_is_start_or_end en.ex p ∧ en.ex.extent_pagelist.head?.map (·.page) = some p

instance (w : World) : ∀ op, Decidable (removes_first w op)
  | .insert _ => inferInstanceAs (Decidable True)
  | .remove p => inferInstanceAs (Decidable (∀ en ∈ w.nodes, extent_pte_contains en.ex p →
      extent_pte_is_start_or_end en.ex p ∧ en.ex.extent_pagelist.head?.map (·.page) = some p))

section Lists
variable {en : ExtentNode} {p : ulong} {A B O : List ExtentNode}

/-- The search through the list finds the pages whose numbers are on it. -/
lemma foreach_iff {ex : Extent} {x : ulong} :
    extent_pte_contains_foreach ex x ↔ x.toNat ∈ ex.numbers := by
  simp [extent_pte_contains_foreach, Extent.numbers, BitVec.toNat_inj]

/-- The test for the ends of an extent, in numbers. -/
lemma is_start_or_end_iff {ex : Extent} {p : ulong} :
    extent_pte_is_start_or_end ex p ↔
      p.toNat = ex.ending_phys_addr.toNat ∨ p.toNat = ex.starting_phys_addr.toNat := by
  simp [extent_pte_is_start_or_end, BitVec.toNat_inj]

/-- A complete list agrees with the fields of its extent. -/
lemma Filled.agree (filled : Filled en) (le : en.lo ≤ en.hi)
    (count : en.ex.pgcount = (en.hi : ℤ) - en.lo + 1) : lists_agree en := by
  constructor
  · intro x
    rw [Bool.eq_iff_iff, contains_iff, foreach_iff, filled.enumerates.mem]
    rfl
  · have len := filled.enumerates.length
    rw [Extent.numbers, List.length_map] at len
    omega

/-- A property of all nodes survives the exchange of some for one that has it. -/
lemma forall_patch {Q : ExtentNode → Prop} {y : ExtentNode} (old : ∀ x ∈ A ++ O ++ B, Q x)
    (new : Q y) : ∀ x ∈ A ++ y :: B, Q x := by
  intro x mem
  cases List.mem_append.mp mem with
  | inl mem => exact old x (by simp [mem])
  | inr mem =>
    rcases List.mem_cons.mp mem with rfl | mem
    · exact new
    · exact old x (by simp [mem])

/-- The node that covers a page is the only one. -/
lemma Covering.unique {e : ExtentNode} (cov : Covering p A e B) (mem : en ∈ A ++ e :: B)
    (covers : extent_pte_contains en.ex p) : en = e := by
  have hs := cov.start
  have he := cov.ending
  have c : en.lo ≤ p.toNat ∧ p.toNat ≤ en.hi := contains_iff.mp covers
  rcases cov.clear mem with below | same | above
  · omega
  · exact same
  · omega

/-- What a split does to a list that holds the page. -/
lemma split_parts {list : List ExtentPage} (mem : p ∈ list.map (·.page)) :
    ∃ l₁ c l₂, list = l₁ ++ c :: l₂ ∧ c.page = p ∧ split_src p list = l₂ ∧
      split_right p list = l₁ ∧ split_frees p list = [.kfree ⟨.extent_page, c.addr⟩] := by
  obtain ⟨x, hx, e⟩ := List.mem_map.mp mem
  have some : (list.find? (·.page = p)).isSome := List.find?_isSome.mpr ⟨x, hx, by simpa using e⟩
  obtain ⟨c, found⟩ := Option.isSome_iff_exists.mp some
  obtain ⟨hc, l₁, l₂, rfl, first⟩ := List.find?_eq_some_iff_append.mp found
  refine ⟨l₁, c, l₂, rfl, by simpa using hc, ?_⟩
  have idx : (l₁ ++ c :: l₂).findIdx (·.page = p) = l₁.length := by
    rw [List.findIdx_append, if_neg]
    · rw [List.findIdx_cons, hc, cond_true, Nat.zero_add]
    · simpa [List.findIdx_lt_length] using first
  refine ⟨?_, ?_, ?_⟩
  · simp [split_src, found, idx]
  · simp [split_right, found, idx]
  · simp [split_frees, found]

/-- A split of a list that does not hold the page changes nothing. -/
lemma split_absent {list : List ExtentPage} (absent : p ∉ list.map (·.page)) :
    split_src p list = list ∧ split_right p list = [] ∧ split_frees p list = [] := by
  have none : list.find? (·.page = p) = none := by
    refine List.find?_eq_none.mpr fun x hx e => absent ?_
    exact List.mem_map.mpr ⟨x, hx, by simpa using e⟩
  simp [split_src, split_right, split_frees, none]

end Lists

section Steps
variable {p : ulong} {n : Nat} {ok : Nat → Bool} {root root' : Tree ExtentNode} {calls : List Event}

/-- An insertion keeps bounds and lists in step. -/
lemma Inserted.filled (ins : Inserted p n ok root root' calls) (wf : Wf root.inorder)
    (filled : ∀ en ∈ root.inorder, Filled en) : ∀ en ∈ root'.inorder, Filled en := by
  cases ins with
  | @new A B _ _ _ e loc e' =>
    rw [e] at filled
    rw [e']
    exact forall_patch (O := []) (by simpa using filled) ⟨.single _, .single _⟩
  | @left A l B _ e loc e' =>
    rw [e] at wf filled
    rw [e']
    refine forall_patch (O := [l]) (by simpa using filled) ?_
    obtain ⟨en, br⟩ := filled l (by simp)
    have le := wf.canonical.proper l (by simp)
    have nums : (l.ex.grow_end n p).numbers = l.ex.numbers ++ [l.hi + 1] := by
      simp [Extent.numbers, loc.left l rfl]
    have hi' : (⟨l.addr, l.ex.grow_end n p⟩ : ExtentNode).hi = l.hi + 1 := (loc.left l rfl).symm
    constructor
    · rw [hi', nums]
      exact en.snoc (by omega)
    · rw [nums]
      exact br.snoc en
  | @right A r B _ e loc e' =>
    rw [e] at wf filled
    rw [e']
    refine forall_patch (O := [r]) (by simpa using filled) ?_
    obtain ⟨en, br⟩ := filled r (by simp)
    have le := wf.canonical.proper r (by simp)
    have nums : (r.ex.grow_start n p).numbers = p.toNat :: r.ex.numbers := rfl
    rw [loc.right r rfl] at en br le
    constructor
    · rw [nums]
      exact en.cons (by omega)
    · rw [nums]
      exact br.cons en
  | @between A l r B _ e loc e' =>
    rw [e] at wf filled
    rw [e']
    refine forall_patch (O := [l, r]) (by simpa using filled) ?_
    obtain ⟨enl, brl⟩ := filled l (by simp)
    obtain ⟨enr, brr⟩ := filled r (by simp)
    have lel := wf.canonical.proper l (by simp)
    have ler := wf.canonical.proper r (by simp)
    have hl := loc.left l rfl
    have hr : r.lo = l.hi + 1 + 1 := by rw [loc.right r rfl, hl]
    have nums : ((l.ex.grow_end n p).absorb r.ex).numbers =
        r.ex.numbers ++ (l.ex.numbers ++ [l.hi + 1]) := by
      simp [Extent.numbers, hl]
    rw [hr] at enr brr ler
    have hi' : (⟨l.addr, (l.ex.grow_end n p).absorb r.ex⟩ : ExtentNode).hi = r.hi := rfl
    have grown := enl.snoc (by omega)
    have pred : [l.hi + 1 - 1, l.hi + 1].Sublist (l.ex.numbers ++ [l.hi + 1]) :=
      (List.singleton_sublist.mpr (enl.mem.mpr (by omega))).append (List.Sublist.refl _)
    constructor
    · rw [nums, hi']
      exact grown.append enr (by omega) (by omega)
    · rw [nums]
      exact (brl.snoc enl).append brr grown enr (by omega) (by omega) pred

/-- The first node of a list is the page's, and a trim removes it. -/
lemma trim_first {list : List ExtentPage} (first : list.head?.map (·.page) = some p) :
    list.map (·.page.toNat) = p.toNat :: (trim_list p list).map (·.page.toNat) := by
  cases list with
  | nil => simp at first
  | cons c rest =>
    have hc : c.page = p := by simpa using first
    simp [trim_list, hc]

/-- Where the first node of a list is another page's, a trim removes nothing. -/
lemma trim_other {list : List ExtentPage} (other : list.head?.map (·.page) ≠ some p) :
    trim_list p list = list := by
  cases list with
  | nil => rfl
  | cons c rest =>
    have hc : c.page ≠ p := by simpa using other
    simp [trim_list, hc]

/-- A removal from the head of a list keeps bounds and lists in step. -/
lemma Removed.filled (rem : Removed p n ok root root' calls)
    (filled : ∀ en ∈ root.inorder, Filled en)
    (first : ∀ en ∈ root.inorder, extent_pte_contains en.ex p →
      extent_pte_is_start_or_end en.ex p ∧ en.ex.extent_pagelist.head?.map (·.page) = some p) :
    ∀ en ∈ root'.inorder, Filled en := by
  cases rem with
  | @last A e B h cov _ h' =>
    rw [h']
    intro x mem
    apply filled x
    rw [h]
    cases List.mem_append.mp mem with
    | inl mem => simp [mem]
    | inr mem => simp [mem]
  | @start A e B h cov s lt h' =>
    obtain ⟨_, hd⟩ := first e (by simp [h]) (contains_iff.mpr ⟨cov.start, cov.ending⟩)
    have nums : e.ex.numbers = e.lo :: (e.ex.drop_start p).numbers := by
      rw [s]
      exact trim_first hd
    obtain ⟨en, br⟩ := filled e (by simp [h])
    have lo' := (drop_start_bounds (p := p) lt).1
    rw [h] at filled
    rw [h']
    refine forall_patch (O := [e]) (by simpa using filled) ?_
    rw [nums] at en br
    constructor
    · rw [lo']
      exact en.tail_lo
    · rw [lo']
      exact br.tail_lo en
  | @ending A e B h cov t lt h' =>
    obtain ⟨_, hd⟩ := first e (by simp [h]) (contains_iff.mpr ⟨cov.start, cov.ending⟩)
    have hi' := (drop_end_bounds (p := p) lt).2.symm
    have nums : e.ex.numbers =
        ((⟨e.addr, e.ex.drop_end p⟩ : ExtentNode).hi + 1) :: (e.ex.drop_end p).numbers := by
      rw [← hi', t]
      exact trim_first hd
    obtain ⟨en, br⟩ := filled e (by simp [h])
    rw [h] at filled
    rw [h']
    refine forall_patch (O := [e]) (by simpa using filled) ?_
    rw [nums] at en br
    rw [hi'] at en
    exact ⟨en.tail_hi, br.tail_hi en⟩
  | @middle A e B _ _ _ h cov s t h' =>
    obtain ⟨edge, _⟩ := first e (by simp [h]) (contains_iff.mpr ⟨cov.start, cov.ending⟩)
    simp only [extent_pte_is_start_or_end, Bool.or_eq_true, decide_eq_true_eq] at edge
    simp only [ExtentNode.lo, ExtentNode.hi] at s t
    cases edge with
    | inl edge =>
      rw [edge] at t
      omega
    | inr edge =>
      rw [edge] at s
      omega

/-- A removal after which bounds and lists agree was from the head of a list. -/
lemma Removed.first (rem : Removed p n ok root root' calls) (wf : Wf root.inorder)
    (filled : ∀ en ∈ root.inorder, Filled en) (agree : ∀ en ∈ root'.inorder, lists_agree en) :
    ∀ en ∈ root.inorder, extent_pte_contains en.ex p →
      extent_pte_is_start_or_end en.ex p ∧ en.ex.extent_pagelist.head?.map (·.page) = some p := by
  intro en mem covers
  obtain ⟨enum, br⟩ := filled en mem
  have len : (en.ex.extent_pagelist.length : ℤ) = en.ex.pgcount :=
    ((filled en mem).agree (wf.canonical.proper en mem) (wf.counts en mem)).2
  -- a list from which nothing was trimmed is too long
  have trimmed : ∀ ex' : Extent, lists_agree ⟨en.addr, ex'⟩ →
      ex'.extent_pagelist = trim_list p en.ex.extent_pagelist → ex'.pgcount = en.ex.pgcount - 1 →
      en.ex.extent_pagelist.head?.map (·.page) = some p := by
    intro ex' ag list count
    by_contra other
    have len' := ag.2
    rw [list, count, trim_other other] at len'
    omega
  cases rem with
  | @last A e B h cov s h' =>
    obtain rfl := cov.unique (h ▸ mem) covers
    have hs := cov.start
    have he := cov.ending
    refine ⟨is_start_or_end_iff.mpr (.inl (by simp only [ExtentNode.hi] at *; omega)), ?_⟩
    have one := enum.length
    rw [Extent.numbers, List.length_map, s] at one
    obtain ⟨c, list⟩ := List.length_eq_one_iff.mp (one.trans (by omega))
    have hc := enum.mem.mp (by rw [Extent.numbers, list]; exact List.mem_singleton_self c.page.toNat)
    have : c.page = p := BitVec.eq_of_toNat_eq (by omega)
    simp [list, this]
  | @start A e B h cov s lt h' =>
    obtain rfl := cov.unique (h ▸ mem) covers
    have agree' := agree ⟨en.addr, en.ex.drop_start p⟩ (by rw [h']; simp)
    exact ⟨is_start_or_end_iff.mpr (.inr s.symm), trimmed _ agree' rfl rfl⟩
  | @ending A e B h cov t lt h' =>
    obtain rfl := cov.unique (h ▸ mem) covers
    have agree' := agree ⟨en.addr, en.ex.drop_end p⟩ (by rw [h']; simp)
    exact ⟨is_start_or_end_iff.mpr (.inl t.symm), trimmed _ agree' rfl rfl⟩
  | @middle A e B _ _ _ h cov s t h' =>
    obtain rfl := cov.unique (h ▸ mem) covers
    -- the smaller pages would stand after the removed one, the greater ones before it
    have hp : p ∈ en.ex.extent_pagelist.map (·.page) := by
      obtain ⟨c, hc, e⟩ := List.mem_map.mp (enum.mem.mpr ⟨cov.start, cov.ending⟩)
      exact List.mem_map.mpr ⟨c, hc, BitVec.eq_of_toNat_eq e⟩
    obtain ⟨l₁, c, l₂, list, rfl, src, right, _⟩ := split_parts hp
    simp only [ExtentNode.lo, ExtentNode.hi] at s t
    have hi' : (c.page - 1).toNat = c.page.toNat - 1 := by bv_omega
    have lo' : (c.page + 1).toNat = c.page.toNat + 1 := by bv_omega
    have below := (agree ⟨n + 1, en.ex.left_half c.page⟩ (by rw [h']; simp)).1 (c.page - 1)
    have above := (agree ⟨n + 2, en.ex.right_half n c.page⟩ (by rw [h']; simp)).1 (c.page + 1)
    rw [Bool.eq_iff_iff, contains_iff, foreach_iff] at below above
    have pred := below.mp (by simp only [Extent.left_half]; omega)
    have succ := above.mp (by simp only [Extent.right_half]; omega)
    simp only [Extent.numbers, Extent.left_half, Extent.right_half, src, right, hi', lo'] at pred succ
    have nd := enum.nodup
    rw [Extent.numbers, list, List.map_append, List.map_cons] at br nd
    exact (br.not_split nd succ pred).elim

end Steps

section Run
variable (rb : Rebalance ExtentNode)

/-- After every call of a history bounds and lists agree. -/
def ListsAgree (h : List Op) : Prop :=
  Always (World.step rb) (fun w op => ∀ en ∈ (w.step rb op).nodes, lists_agree en)
    (World.start fun _ => true) h

/-- A removal from the head of a list, and every admitted insertion, keep bounds and lists in step. -/
lemma filled_step {w : World} {s : Finset ulong} {op : Op} (admitted : op.untracked s ∧ op.nowrap s)
    (ref : Refines w s) (filled : ∀ en ∈ w.nodes, Filled en) (first : removes_first w op) :
    ∀ en ∈ (w.step rb op).nodes, Filled en := by
  cases op with
  | insert p =>
    obtain ⟨root, calls, run, ins⟩ := ref.inserted rb admitted.1 admitted.2
    simp only [World.step, run]
    exact ins.filled ref.wf filled
  | remove p =>
    by_cases hp : p ∈ s
    · obtain ⟨root, calls, run, rem⟩ := ref.removed rb hp
      simp only [World.step, run]
      exact rem.filled filled first
    · simp only [World.step, remove_absent rb w.m (mt (ref.mem p).mp hp)]
      exact filled

/-- If bounds and lists agree after a call, it was no removal from elsewhere in a list. -/
lemma removes_first_of_agree {w : World} {s : Finset ulong} {op : Op} (ref : Refines w s)
    (filled : ∀ en ∈ w.nodes, Filled en) (agree : ∀ en ∈ (w.step rb op).nodes, lists_agree en) :
    removes_first w op := by
  cases op with
  | insert p => trivial
  | remove p =>
    intro en mem covers
    have hp : p ∈ s := (ref.mem p).mp ⟨en, mem, covers⟩
    obtain ⟨root, calls, run, rem⟩ := ref.removed rb hp
    simp only [World.step, run] at agree
    exact rem.first ref.wf filled agree en mem covers

/-- Where all lists are complete, all agree. -/
lemma agree_of_filled {w : World} {s : Finset ulong} (ref : Refines w s)
    (filled : ∀ en ∈ w.nodes, Filled en) : ∀ en ∈ w.nodes, lists_agree en :=
  fun en mem => (filled en mem).agree (ref.wf.canonical.proper en mem) (ref.wf.counts en mem)

/-- Bounds and lists agree in every state of a history exactly if every page is removed at an end of its
extent and from the head of its list. -/
theorem lists_agree_iff (h : List Op) (legal : Legal h) :
    ListsAgree rb h ↔ Always (World.step rb) removes_first (World.start fun _ => true) h := by
  have key : ∀ (w : World) (s : Finset ulong), Refines w s → (∀ en ∈ w.nodes, Filled en) →
      Always track (fun s op => op.untracked s ∧ op.nowrap s) s h →
      (Always (World.step rb) (fun w op => ∀ en ∈ (w.step rb op).nodes, lists_agree en) w h ↔
        Always (World.step rb) removes_first w h) := by
    clear legal
    -- as long as either side holds, the lists are filled
    induction h with
    | nil => exact fun _ _ _ _ _ => Iff.rfl
    | cons op h ih =>
      intro w s ref filled legal
      have ref' := step_refines rb legal.1 ref
      constructor
      · intro ⟨agree, rest⟩
        have first := removes_first_of_agree rb ref filled agree
        have filled' := filled_step rb legal.1 ref filled first
        exact ⟨first, (ih _ _ ref' filled' legal.2).mp rest⟩
      · intro ⟨first, rest⟩
        have filled' := filled_step rb legal.1 ref filled first
        exact ⟨agree_of_filled ref' filled', (ih _ _ ref' filled' legal.2).mpr rest⟩
  exact key _ _ Refines.start (by simp [World.start, World.nodes, ExtentPagetable.empty]) legal

end Run

/-- A page is removed from the head of its list. -/
theorem lists_agree_head :
    ListsAgree .plain [.insert 2, .insert 1, .insert 4, .insert 3, .remove 4] :=
  (lists_agree_iff .plain [.insert 2, .insert 1, .insert 4, .insert 3, .remove 4]
    (by decide)).mpr (by decide)

/-- The last page of an extent that grew upwards is removed, but its node stays on the list. -/
theorem not_lists_agree : ¬∀ rb h, Untracked h → ListsAgree rb h := by
  intro all
  obtain ⟨_, _, agree, _⟩ := all .plain [.insert 1, .insert 2, .remove 2] (by decide)
  have stale := (agree ⟨1, ⟨0, [⟨2, 1⟩, ⟨3, 2⟩], 1, 1, 1⟩⟩ (by decide)).2
  exact absurd stale (by decide)

end CS519.Extents
