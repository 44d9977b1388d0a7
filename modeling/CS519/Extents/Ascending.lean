import CS519.Extents.PageList

/-!
# Splitting, merging and trimming an extent

The contracts of the three operations that change the page list of an extent in more than one place,
for extents whose list holds their pages in ascending order. `Halved`, `Joined` and `Trimmed` say what
the callers expect of a call that does its work; a call that refuses leaves everything as it was.

None of the contracts is met throughout. `extent_split` meets its own when it refuses and never when it
splits, since the two parts of the list land in the wrong halves. `extent_merge` puts the pages of the
right extent in front, in both directions. `extent_trim` finds the page at the head of the list only.
-/

namespace CS519.Extents
open ExtentNode

namespace Extent

/-- The number of the first page. -/
def lo (ex : Extent) : ℕ := ex.starting_phys_addr.toNat

/-- The number of the last page. -/
def hi (ex : Extent) : ℕ := ex.ending_phys_addr.toNat

/-- The page list is the range in ascending order, and the count is its length. -/
structure Ascending (ex : Extent) : Prop where
  numbers : ex.numbers = List.range' ex.lo (ex.hi + 1 - ex.lo)
  pgcount : ex.pgcount = (ex.hi : ℤ) + 1 - ex.lo

instance (ex : Extent) : Decidable ex.Ascending :=
  decidable_of_iff
    (ex.numbers = List.range' ex.lo (ex.hi + 1 - ex.lo) ∧ ex.pgcount = (ex.hi : ℤ) + 1 - ex.lo)
    ⟨fun ⟨n, c⟩ => ⟨n, c⟩, fun ⟨n, c⟩ => ⟨n, c⟩⟩

end Extent

/-- A range that is not empty, by its first number. -/
lemma range'_head {a n : ℕ} (h : 0 < n) : (List.range' a n).head? = some a := by
  obtain ⟨k, rfl⟩ : ∃ k, n = k + 1 := ⟨n - 1, by omega⟩
  simp [List.range'_succ]

namespace Extent.Ascending
variable {ex : Extent} {pte : ulong}

/-- An extent with a page starts no later than it ends. -/
lemma lo_le_hi (asc : ex.Ascending) (h : 1 ≤ ex.pgcount) : ex.lo ≤ ex.hi := by
  have := asc.pgcount
  omega

/-- The first number on the list. -/
lemma head (asc : ex.Ascending) (h : ex.lo ≤ ex.hi) : ex.numbers.head? = some ex.lo := by
  rw [asc.numbers]
  apply range'_head
  omega

/-- The node of a page, with the pages below it in front and those above it behind. -/
lemma at_page (asc : ex.Ascending) (h : ex.lo ≤ pte.toNat) (h' : pte.toNat ≤ ex.hi) :
    ∃ l₁ node l₂, ex.extent_pagelist = l₁ ++ node :: l₂ ∧ node.page = pte ∧
      split_src pte ex.extent_pagelist = l₂ ∧ split_right pte ex.extent_pagelist = l₁ ∧
      l₁.map (·.page.toNat) = List.range' ex.lo (pte.toNat - ex.lo) ∧
      l₂.map (·.page.toNat) = List.range' (pte.toNat + 1) (ex.hi - pte.toNat) := by
  have mem : pte ∈ ex.extent_pagelist.map (·.page) := by
    have : pte.toNat ∈ ex.numbers := by
      rw [asc.numbers, List.mem_range'_1]
      omega
    obtain ⟨node, mem, e⟩ := List.mem_map.mp this
    exact List.mem_map.mpr ⟨node, mem, BitVec.eq_of_toNat_eq e⟩
  obtain ⟨l₁, node, l₂, e, page, src, right, _⟩ := split_parts mem
  refine ⟨l₁, node, l₂, e, page, src, right, ?_⟩
  have nums : l₁.map (·.page.toNat) ++ pte.toNat :: l₂.map (·.page.toNat) =
      List.range' ex.lo (ex.hi + 1 - ex.lo) := by
    rw [← asc.numbers, Extent.numbers, e, List.map_append, List.map_cons, page]
  -- the entry after the first part is `pte`, so the first part has `pte - lo` entries
  have len : l₁.length = pte.toNat - ex.lo := by
    have entry := congrArg (·[l₁.length]?) nums
    simp only [List.getElem?_append_right, List.length_map, le_refl, Nat.sub_self,
      List.getElem?_cons_zero] at entry
    obtain ⟨_, eq⟩ := List.getElem?_eq_some_iff.mp entry.symm
    rw [List.getElem_range'] at eq
    omega
  have parts : List.range' ex.lo (ex.hi + 1 - ex.lo) =
      List.range' ex.lo (pte.toNat - ex.lo) ++
        pte.toNat :: List.range' (pte.toNat + 1) (ex.hi - pte.toNat) := by
    have n : ex.hi + 1 - ex.lo = (pte.toNat - ex.lo) + (ex.hi - pte.toNat + 1) := by omega
    have next : ex.lo + (pte.toNat - ex.lo) = pte.toNat := by omega
    rw [n, ← List.range'_append_1, next, List.range'_succ]
  rw [parts] at nums
  obtain ⟨first, rest⟩ := List.append_inj nums (by simp [len])
  exact ⟨first, (List.cons.inj rest).2⟩

end Extent.Ascending

/-! ## `extent_split` -/

/-- `ex` was split around `pte` into `left` and `right`, and the node of `pte` is in neither. -/
structure Halved (ex : Extent) (pte : ulong) (left right : Extent) : Prop where
  left_bounds : left.lo = ex.lo ∧ left.hi = pte.toNat - 1
  left_count : left.pgcount = (pte.toNat : ℤ) - ex.lo
  left_pages : left.numbers = List.range' ex.lo (pte.toNat - ex.lo)
  right_bounds : right.lo = pte.toNat + 1 ∧ right.hi = ex.hi
  right_count : right.pgcount = (ex.hi : ℤ) - pte.toNat
  right_pages : right.numbers = List.range' (pte.toNat + 1) (ex.hi - pte.toNat)
  unlinked : ∀ node ∈ ex.extent_pagelist, node.page = pte →
    node ∉ left.extent_pagelist ∧ node ∉ right.extent_pagelist

/-- The contract of `extent_split`. -/
def splits (ex : Extent) (pte : ulong) (r : Extent) (out : Int × Extent × Extent) : Prop :=
  if ex.lo < pte.toNat ∧ pte.toNat < ex.hi then out.1 = 0 ∧ Halved ex pte out.2.1 out.2.2
  else out = (-1, ex, r)

section Split
variable {ex : Extent} {pte : ulong}

/-- The two parts of the list land in the wrong halves. -/
theorem split_swapped (asc : ex.Ascending) (h : ex.lo ≤ pte.toNat) (h' : pte.toNat ≤ ex.hi)
    (addr : ℕ) :
    (ex.left_half pte).numbers = List.range' (pte.toNat + 1) (ex.hi - pte.toNat) ∧
      (ex.right_half addr pte).numbers = List.range' ex.lo (pte.toNat - ex.lo) := by
  obtain ⟨l₁, node, l₂, _, _, src, right, nums₁, nums₂⟩ := asc.at_page h h'
  constructor
  · rw [← nums₂, ← src]
    rfl
  · rw [← nums₁, ← right]
    rfl

/-- A page that is not strictly inside the range is refused. -/
lemma extent_split_refused (h : ¬(ex.lo < pte.toNat ∧ pte.toNat < ex.hi)) (r : Extent)
    (m : Machine) : extent_split ex pte r m = ((-1, ex, r), m) := by
  by_cases con : extent_pte_contains ex pte
  · have edge : extent_pte_is_start_or_end ex pte := by
      obtain ⟨h₁, h₂⟩ := contains_iff.mp con
      apply is_start_or_end_iff.mpr
      simp only [Extent.lo, Extent.hi] at h
      omega
    simp [extent_split, con, edge]
  · simp [extent_split, con]

/-- `extent_split` meets its contract exactly when it refuses. -/
theorem extent_split_iff (asc : ex.Ascending) (r : Extent) (m : Machine) :
    splits ex pte r (extent_split ex pte r m).1 ↔ ¬(ex.lo < pte.toNat ∧ pte.toNat < ex.hi) := by
  constructor
  · intro spec h
    have con : extent_pte_contains ex pte := contains_iff.mpr ⟨h.1.le, h.2.le⟩
    have mid : extent_pte_is_start_or_end ex pte = false := by
      apply Bool.eq_false_iff.mpr
      intro edge
      have := is_start_or_end_iff.mp edge
      simp only [Extent.lo, Extent.hi] at h
      omega
    rw [extent_split_middle ex pte m r con mid, splits, if_pos h] at spec
    -- the left half should start at `lo`, and starts after `pte`
    have pages := (split_swapped asc h.1.le h.2.le r.addr).1.symm.trans spec.2.left_pages
    have heads := congrArg List.head? pages
    rw [range'_head (by omega), range'_head (by omega)] at heads
    have := Option.some.inj heads
    omega
  · intro h
    rw [extent_split_refused h, splits, if_neg h]

/-- The extent of the pages 1, 2 and 3. -/
def one_to_three : Extent := ⟨0, [⟨1, 1⟩, ⟨2, 2⟩, ⟨3, 3⟩], 3, 1, 3⟩

/-- Taking 2 out of the pages 1 to 3 leaves the range of page 1 with the node of page 3. -/
theorem not_splits :
    one_to_three.Ascending ∧
      ¬splits one_to_three 2 (.fresh 4)
        (extent_split one_to_three 2 (.fresh 4) (.boot fun _ => true)).1 := by
  refine ⟨by decide, fun spec => ?_⟩
  rw [splits, if_pos (by decide)] at spec
  have pages := spec.2.left_pages
  revert pages
  decide

/-- The extent of three pages cannot be split at its last one. -/
theorem splits_refused :
    splits one_to_three 3 (.fresh 4)
      (extent_split one_to_three 3 (.fresh 4) (.boot fun _ => true)).1 :=
  (extent_split_iff (by decide) _ _).mpr (by decide)

end Split

/-! ## `extent_merge` -/

/-- `ex` has the pages of `left` and of `right`, which starts after `left` ends. -/
structure Joined (left right ex : Extent) : Prop where
  bounds : ex.lo = left.lo ∧ ex.hi = right.hi
  count : ex.pgcount = left.pgcount + right.pgcount
  pages : ex.numbers = List.range' left.lo (right.hi + 1 - left.lo)

/-- The contract of `extent_merge`. -/
def merges (to_ex from_ex : Extent) (out : Int × Extent × Extent) : Prop :=
  if to_ex.hi + 1 = from_ex.lo then out.1 = 0 ∧ Joined to_ex from_ex out.2.1
  else if from_ex.hi + 1 = to_ex.lo then out.1 = 0 ∧ Joined from_ex to_ex out.2.1
  else out = (-1, to_ex, from_ex)

section Merge
variable {to_ex from_ex : Extent}

/-- The rotation of the kernel is that of the library. -/
lemma list_rotate_left_eq {α : Type*} (l : List α) : list_rotate_left l = l.rotate 1 := by
  cases l with
  | nil => rfl
  | cons first rest => simp [list_rotate_left]

/-- As many rotations as the first part is long exchange the two parts. -/
lemma rotate_parts {α : Type*} (l r : List α) : list_rotate_left^[l.length] (l ++ r) = r ++ l := by
  have key : ∀ n (k : List α), list_rotate_left^[n] k = k.rotate n := by
    intro n
    induction n with
    | zero => simp
    | succ n ih =>
      intro k
      rw [Function.iterate_succ_apply, ih, list_rotate_left_eq, List.rotate_rotate, Nat.add_comm]
  rw [key, List.rotate_append_length_eq]

/-- The pages that are absorbed come first in the list. -/
lemma absorb_numbers (ex right : Extent) :
    (ex.absorb right).numbers = right.numbers ++ ex.numbers := by
  simp [Extent.numbers]

/-- The rotations bring the pages of the left extent behind the others. -/
lemma absorb_left_numbers {ex left : Extent} (asc : left.Ascending) :
    (ex.absorb_left left).numbers = ex.numbers ++ left.numbers := by
  have len : left.pgcount.toNat = left.extent_pagelist.length := by
    have nums := congrArg List.length asc.numbers
    have count := asc.pgcount
    simp only [Extent.numbers, List.length_map, List.length_range'] at nums
    omega
  simp [Extent.numbers, len, rotate_parts]

/-- Two extents are adjacent if one of them ends right before the other one starts. -/
lemma adjacent_iff : extents_are_adjacent to_ex from_ex ↔
    to_ex.ending_phys_addr = from_ex.starting_phys_addr - 1 ∨
      from_ex.ending_phys_addr = to_ex.starting_phys_addr - 1 := by
  simp [extents_are_adjacent]

/-- A merge does its work or refuses. -/
lemma extent_merge_ret (to_ex from_ex : Extent) (m : Machine) :
    (extent_merge to_ex from_ex m).1.1 ≠ 1 := by
  by_cases adj : extents_are_adjacent to_ex from_ex
  · by_cases empty : to_ex.pgcount = 0 ∨ from_ex.pgcount = 0
    · simp [extent_merge, adj, empty]
    · obtain ⟨c₁, c₂⟩ := not_or.mp empty
      by_cases right : to_ex.ending_phys_addr = from_ex.starting_phys_addr - 1
      · simp [extent_merge_right to_ex m from_ex right c₁ c₂]
      · have left := (adjacent_iff.mp adj).resolve_left right
        simp [extent_merge_left to_ex m from_ex right left c₁ c₂]
  · simp [extent_merge, adj]

/-- Extents of which one starts after the other ends are adjacent for the code. -/
lemma adjacent_of_next (h : to_ex.hi + 1 = from_ex.lo) :
    to_ex.ending_phys_addr = from_ex.starting_phys_addr - 1 := by
  simp only [Extent.lo, Extent.hi] at h
  bv_omega

/-- `extent_merge` meets its contract exactly when it refuses. -/
theorem extent_merge_iff (asc₁ : to_ex.Ascending) (asc₂ : from_ex.Ascending)
    (c₁ : 1 ≤ to_ex.pgcount) (c₂ : 1 ≤ from_ex.pgcount) (m : Machine) :
    (merges to_ex from_ex (extent_merge to_ex from_ex m).1 ∧
        (extent_merge to_ex from_ex m).1.1 ≠ 1) ↔
      extents_are_adjacent to_ex from_ex = false := by
  have le₁ := asc₁.lo_le_hi c₁
  have le₂ := asc₂.lo_le_hi c₂
  constructor
  · rintro ⟨spec, -⟩
    apply Bool.eq_false_iff.mpr
    intro adj
    by_cases right : to_ex.ending_phys_addr = from_ex.starting_phys_addr - 1
    · rw [extent_merge_right to_ex m from_ex right (by omega) (by omega), merges] at spec
      split at spec
      · -- the list should start with the first page of `to_ex`
        have heads := congrArg List.head? spec.2.pages
        rw [absorb_numbers, List.head?_append, asc₂.head le₂, Option.some_or,
          range'_head (by omega)] at heads
        have := Option.some.inj heads
        omega
      · split at spec
        · -- adjacent at both ends of the address space, and joined at the wrong one
          have lo : to_ex.lo = from_ex.lo := spec.2.bounds.1
          omega
        · simp at spec
    · have left := (adjacent_iff.mp adj).resolve_left right
      rw [extent_merge_left to_ex m from_ex right left (by omega) (by omega), merges,
        if_neg fun next => right (adjacent_of_next next)] at spec
      split at spec
      · have heads := congrArg List.head? spec.2.pages
        rw [absorb_left_numbers asc₂, List.head?_append, asc₁.head le₁, Option.some_or,
          range'_head (by omega)] at heads
        have := Option.some.inj heads
        omega
      · simp at spec
  · intro adj
    obtain ⟨n₁, n₂⟩ := not_or.mp (adjacent_iff.not.mp (Bool.eq_false_iff.mp adj))
    refine ⟨?_, extent_merge_ret to_ex from_ex m⟩
    rw [extent_merge_apart to_ex m from_ex adj, merges, if_neg fun next => n₁ (adjacent_of_next next),
      if_neg fun next => n₂ (adjacent_of_next next)]

/-- The extent of the pages 5 and 6. -/
def five_six : Extent := ⟨4, [⟨5, 5⟩, ⟨6, 6⟩], 2, 5, 6⟩

/-- The extent of page 4. -/
def four : Extent := ⟨7, [⟨8, 4⟩], 1, 4, 4⟩

/-- The pages 5 and 6 after the pages 1 to 4, and the page 4 before them: the list is wrong in both
directions. -/
theorem not_merges :
    (one_to_three.Ascending ∧ four.Ascending ∧ five_six.Ascending) ∧
      ¬merges one_to_three four (extent_merge one_to_three four (.boot fun _ => true)).1 ∧
      ¬merges five_six four (extent_merge five_six four (.boot fun _ => true)).1 := by
  refine ⟨by decide, fun spec => ?_, fun spec => ?_⟩
  · rw [merges, if_pos (by decide)] at spec
    have pages := spec.2.pages
    revert pages
    decide
  · rw [merges, if_neg (by decide), if_pos (by decide)] at spec
    have pages := spec.2.pages
    revert pages
    decide

/-- The extents 1 to 3 and 5 to 6 lie apart and are not merged. -/
theorem merges_apart :
    merges one_to_three five_six (extent_merge one_to_three five_six (.boot fun _ => true)).1 ∧
      (extent_merge one_to_three five_six (.boot fun _ => true)).1.1 ≠ 1 :=
  (extent_merge_iff (by decide) (by decide) (by decide) (by decide) _).mpr (by decide)

end Merge

/-! ## `extent_trim` -/

/-- `pte` was taken from an end of `ex`: its node, and no other, was unlinked and freed. -/
structure Trimmed (ex : Extent) (pte : ulong) (m : Machine) (ex' : Extent) (m' : Machine) : Prop where
  unlinked : ∃ l₁ node l₂, ex.extent_pagelist = l₁ ++ node :: l₂ ∧ node.page = pte ∧
    ex'.extent_pagelist = l₁ ++ l₂ ∧ m' = m.after [.kfree ⟨.extent_page, node.addr⟩]
  count : ex'.pgcount = ex.pgcount - 1
  bounds : 1 < ex.pgcount →
    if pte.toNat = ex.lo then ex'.lo = ex.lo + 1 ∧ ex'.hi = ex.hi
    else ex'.lo = ex.lo ∧ ex'.hi = ex.hi - 1

/-- The contract of `extent_trim`. -/
def trims (ex : Extent) (pte : ulong) (m : Machine) (out : (Int × Extent) × Machine) : Prop :=
  if pte.toNat = ex.lo ∨ pte.toNat = ex.hi then out.1.1 = 0 ∧ Trimmed ex pte m out.1.2 out.2
  else out = ((-1, ex), m)

section Trim
variable {ex : Extent} {pte : ulong}

/-- The loop unlinks the first node of an ascending list if it holds the page. -/
lemma Extent.Ascending.trim_head (asc : ex.Ascending) (le : ex.lo ≤ ex.hi) :
    ∃ node rest, ex.extent_pagelist = node :: rest ∧ node.page.toNat = ex.lo := by
  have head := asc.head le
  rw [Extent.numbers, List.head?_map] at head
  cases e : ex.extent_pagelist with
  | nil => simp [e] at head
  | cons node rest =>
    rw [e] at head
    exact ⟨node, rest, rfl, by simpa using head⟩

/-- The loop leaves an ascending list alone when the page is not the first one. -/
lemma Extent.Ascending.trim_missed (asc : ex.Ascending) (le : ex.lo ≤ ex.hi) (ne : pte.toNat ≠ ex.lo) :
    trim_list pte ex.extent_pagelist = ex.extent_pagelist := by
  obtain ⟨node, rest, e, page⟩ := asc.trim_head le
  have miss : node.page ≠ pte := by
    intro h
    rw [h] at page
    exact ne page
  rw [e, trim_list, if_neg miss]

/-- A page is the first one of an extent exactly if it has its number. -/
lemma toNat_eq_lo : pte.toNat = ex.lo ↔ pte = ex.starting_phys_addr := BitVec.toNat_inj

/-- A page is the last one of an extent exactly if it has its number. -/
lemma toNat_eq_hi : pte.toNat = ex.hi ↔ pte = ex.ending_phys_addr := BitVec.toNat_inj

/-- `extent_trim` meets its contract except at the end of an extent of more than one page. -/
theorem extent_trim_iff (asc : ex.Ascending) (c : 1 ≤ ex.pgcount) (m : Machine) :
    trims ex pte m (extent_trim ex pte m) ↔ ¬(pte.toNat = ex.hi ∧ ex.lo < ex.hi) := by
  have le := asc.lo_le_hi c
  have count := asc.pgcount
  constructor
  · rintro spec ⟨last, lt⟩
    rw [extent_trim_end ex pte m (toNat_eq_hi.mp last) (by omega), trims, if_pos (.inr last)] at spec
    -- a node is gone from the list that the loop has left alone
    obtain ⟨l₁, node, l₂, e, _, e', _⟩ := spec.2.unlinked
    have list : trim_list pte ex.extent_pagelist = l₁ ++ l₂ := e'
    rw [asc.trim_missed le (by omega), e] at list
    have len := congrArg List.length list
    simp at len
  · intro h
    by_cases first : pte.toNat = ex.lo
    · obtain ⟨node, rest, e, page⟩ := asc.trim_head le
      have hit : node.page = pte := BitVec.eq_of_toNat_eq (page.trans first.symm)
      have loop : trim_list pte ex.extent_pagelist = rest ∧
          trim_frees pte ex.extent_pagelist = [.kfree ⟨.extent_page, node.addr⟩] := by
        simp [e, trim_list, trim_frees, hit]
      rw [trims, if_pos (.inl first)]
      by_cases more : ex.lo < ex.hi
      · have ne : pte ≠ ex.ending_phys_addr := fun last => h ⟨toNat_eq_hi.mpr last, more⟩
        rw [extent_trim_start ex pte m (toNat_eq_lo.mp first) ne (by omega), loop.2]
        refine ⟨rfl, ⟨[], node, rest, e, hit, ?_, rfl⟩, rfl, fun _ => ?_⟩
        · simp [Extent.drop_start, loop.1]
        · rw [if_pos first]
          simp only [Extent.lo, Extent.hi, Extent.drop_start] at more ⊢
          refine ⟨?_, trivial⟩
          bv_omega
      · rw [extent_trim_last ex pte m (toNat_eq_lo.mp first) (by omega), loop.2]
        refine ⟨rfl, ⟨[], node, rest, e, hit, ?_, rfl⟩, ?_, fun many => ?_⟩
        · simp [loop.1]
        · simp only
          omega
        · omega
    · have last : pte.toNat ≠ ex.hi := by
        intro last
        exact h ⟨last, by omega⟩
      have inner : extent_pte_is_start_or_end ex pte = false := by
        apply Bool.eq_false_iff.mpr
        intro edge
        cases is_start_or_end_iff.mp edge with
        | inl e => exact last e
        | inr e => exact first e
      rw [trims, if_neg (not_or.mpr ⟨first, last⟩)]
      simp [extent_trim, inner]

/-- Removing 3 from the pages 1 to 3 leaves all three nodes on the list. -/
theorem not_trims :
    (one_to_three.Ascending ∧ 1 ≤ one_to_three.pgcount) ∧
      ¬trims one_to_three 3 (.boot fun _ => true)
        (extent_trim one_to_three 3 (.boot fun _ => true)) := by
  refine ⟨by decide, fun spec => ?_⟩
  rw [trims, if_pos (by decide)] at spec
  obtain ⟨l₁, node, l₂, e, _, e', _⟩ := spec.2.unlinked
  have len := congrArg List.length e
  have len' := congrArg List.length e'
  simp [one_to_three] at len
  rw [show (extent_trim one_to_three 3 (.boot fun _ => true)).1.2.extent_pagelist.length = 3 by rfl,
    List.length_append] at len'
  omega

/-- The first page of three is trimmed. -/
theorem trims_first :
    trims one_to_three 1 (.boot fun _ => true) (extent_trim one_to_three 1 (.boot fun _ => true)) :=
  (extent_trim_iff (by decide) (by decide) _).mpr (by decide)

end Trim

end CS519.Extents
