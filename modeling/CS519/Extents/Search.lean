import CS519.Runs
import CS519.Extents.Table

/-!
# Searching a well-formed table

`Wf` is the invariant of the in-order sequence of a table: its extents are the maximal runs of the pages
they cover, the counts agree with the bounds, and the nodes are distinct objects. What a search returns
is right in any table, by the `*_sound` lemmas, and over a well-formed one it misses nothing, by the
`*_iff` lemmas. From these the searches are described through the position of the page:
`find_all_adjacent_eq` for a page that no extent covers, `find_containing_eq` and
`find_containing_none` for any page.
-/

namespace CS519.Extents
open Runs

namespace ExtentNode

/-- The first page of a node's extent. -/
def lo (en : ExtentNode) : ℕ := en.ex.starting_phys_addr.toNat

/-- The last page of a node's extent. -/
def hi (en : ExtentNode) : ℕ := en.ex.ending_phys_addr.toNat

end ExtentNode

open ExtentNode

/-- The pages in the range of some extent. -/
def pages (l : List ExtentNode) : Set ulong := {p | ∃ en ∈ l, extent_pte_contains en.ex p}

/-- The test for a page of an extent, in numbers. -/
lemma contains_iff {ex : Extent} {p : ulong} :
    extent_pte_contains ex p ↔
      ex.starting_phys_addr.toNat ≤ p.toNat ∧ p.toNat ≤ ex.ending_phys_addr.toNat := by
  simp [extent_pte_contains, BitVec.le_def]

/-- A page is in a table if its number is covered. -/
lemma mem_pages {l : List ExtentNode} {p : ulong} : p ∈ pages l ↔ p.toNat ∈ cover lo hi l := by
  constructor
  · rintro ⟨en, mem, h⟩
    exact ⟨en, mem, contains_iff.mp h⟩
  · rintro ⟨en, mem, h⟩
    exact ⟨en, mem, contains_iff.mpr h⟩

/-- The invariant of the in-order sequence of a table. -/
structure Wf (l : List ExtentNode) : Prop where
  canonical : Canonical lo hi l
  counts : ∀ en ∈ l, en.ex.pgcount = (en.hi : ℤ) - en.lo + 1
  addrs : (l.map ExtentNode.addr).Nodup

/-- The empty table is well formed. -/
lemma Wf.nil : Wf [] := ⟨.nil, by simp, by simp⟩

/-- The position of a page that no extent covers: `L` ends right before it, `R` starts right after. -/
structure Located (p : ulong) (A : List ExtentNode) (L R : Option ExtentNode)
    (B : List ExtentNode) : Prop where
  below : ∀ a ∈ A, a.hi + 1 < p.toNat
  left : ∀ a ∈ L, a.hi + 1 = p.toNat
  right : ∀ b ∈ R, b.lo = p.toNat + 1
  above : ∀ b ∈ B, p.toNat + 1 < b.lo

/-- An uncovered page has a place between the extents. -/
lemma Wf.locate {l : List ExtentNode} (wf : Wf l) {p : ulong} (np : p ∉ pages l) :
    ∃ A L R B, l = A ++ L.toList ++ R.toList ++ B ∧ Located p A L R B := by
  obtain ⟨A, B, L, R, e, hA, hL, hR, hB⟩ := wf.canonical.locate (mem_pages.not.mp np)
  exact ⟨A, L, R, B, e, hA, hL, hR, hB⟩

/-- The extent that covers a page, clear of the extents on either side. -/
structure Covering (p : ulong) (A : List ExtentNode) (e : ExtentNode) (B : List ExtentNode) :
    Prop where
  start : e.lo ≤ p.toNat
  ending : p.toNat ≤ e.hi
  below : ∀ a ∈ A, a.hi + 1 < e.lo
  above : ∀ b ∈ B, e.hi + 1 < b.lo

/-- The other extents keep clear of the covering one. -/
lemma Covering.clear {p : ulong} {A B : List ExtentNode} {e x : ExtentNode}
    (cov : Covering p A e B) (mem : x ∈ A ++ e :: B) :
    x.hi + 1 < e.lo ∨ x = e ∨ e.hi + 1 < x.lo := by
  cases List.mem_append.mp mem with
  | inl mem => exact .inl (cov.below x mem)
  | inr mem =>
    cases List.mem_cons.mp mem with
    | inl same => exact .inr (.inl same)
    | inr mem => exact .inr (.inr (cov.above x mem))

/-- A covered page lies in one of the extents. -/
lemma Wf.split {l : List ExtentNode} (wf : Wf l) {p : ulong} (hp : p ∈ pages l) :
    ∃ A e B, l = A ++ e :: B ∧ Covering p A e B := by
  obtain ⟨A, e, B, h, hs, he, hA, hB⟩ := wf.canonical.split (mem_pages.mp hp)
  exact ⟨A, e, B, h, hs, he, hA, hB⟩

section Find
variable {root : Tree ExtentNode} {p : ulong} {A B : List ExtentNode} {L R : Option ExtentNode}

/-- The remembered descent ends at the node that passes its downward closed test while all the nodes
that keep clear above it fail. -/
lemma descend_reaches {q : ExtentNode → Bool} (can : Canonical lo hi root.inorder)
    (closed : ∀ a b : ExtentNode, a.lo < b.lo → q b → q a) {en : ExtentNode}
    (mem : en ∈ root.inorder) (pass : q en)
    (stop : ∀ b ∈ root.inorder, en.hi + 1 < b.lo → ¬q b) : root.descend q none = some en := by
  obtain ⟨A, B, e, below, above⟩ := can.split_mem mem
  have hA : ∀ a ∈ A, q a := by
    intro a ha
    have := can.proper a (by simp [e, ha])
    have := below a ha
    exact closed a en (by omega) pass
  have hB : ∀ b ∈ B, ¬q b := fun b hb => stop b (by simp [e, hb]) (above b hb)
  rw [Tree.descend_eq closed none can.lo_lt, e, List.filter_append, List.filter_cons_of_pos pass,
    List.filter_eq_self.mpr hA, List.filter_eq_nil_iff.mpr hB]
  simp

/-- A node returned as the left neighbour of a page ends right before it, in any table. -/
lemma find_left_neighbor_sound {en : ExtentNode} (h : extent_rb_find_left_neighbor root p = some en) :
    en ∈ root.inorder ∧ en.lo < p.toNat ∧ en.hi + 1 = p.toNat := by
  rw [extent_rb_find_left_neighbor] at h
  cases hd : root.descend (fun n => n.ex.starting_phys_addr < p) none with
  | none => simp [hd] at h
  | some best =>
    obtain ⟨mem, lt⟩ := Tree.descend_sound hd
    simp only [hd, Option.ite_none_right_eq_some, Option.some.injEq] at h
    obtain ⟨prev, rfl⟩ := h
    simp only [decide_eq_true_eq, BitVec.lt_def] at lt
    refine ⟨mem, lt, ?_⟩
    rw [ExtentNode.hi, prev]
    bv_omega

/-- The left neighbour of a page is the node whose extent ends right before it. -/
lemma find_left_neighbor_iff (can : Canonical lo hi root.inorder) {en : ExtentNode} :
    extent_rb_find_left_neighbor root p = some en ↔ en ∈ root.inorder ∧ en.hi + 1 = p.toNat := by
  constructor
  · intro h
    obtain ⟨mem, _, ending⟩ := find_left_neighbor_sound h
    exact ⟨mem, ending⟩
  · rintro ⟨mem, ending⟩
    have le := can.proper en mem
    have hd : root.descend (fun n => n.ex.starting_phys_addr < p) none = some en := by
      refine descend_reaches can (fun a b lt h => ?_) mem ?_ fun b _ far => ?_
      · simp only [ExtentNode.lo, decide_eq_true_eq, BitVec.lt_def] at lt h ⊢
        omega
      · simp only [ExtentNode.lo, decide_eq_true_eq, BitVec.lt_def] at le ⊢
        omega
      · simp only [ExtentNode.lo, decide_eq_true_eq, BitVec.lt_def] at far ⊢
        omega
    have prev : en.ex.ending_phys_addr = p - 1 := by
      rw [ExtentNode.hi] at ending
      bv_omega
    rw [extent_rb_find_left_neighbor, hd]
    exact if_pos prev

/-- The descent to the left neighbour finds it, or nothing. -/
lemma find_left_neighbor_eq (can : Canonical lo hi root.inorder)
    (e : root.inorder = A ++ L.toList ++ R.toList ++ B) (loc : Located p A L R B) :
    extent_rb_find_left_neighbor root p = L := by
  cases L with
  | some l => exact (find_left_neighbor_iff can).mpr ⟨by simp [e], loc.left l rfl⟩
  | none =>
    rw [Option.eq_none_iff_forall_ne_some]
    intro en h
    obtain ⟨mem, ending⟩ := (find_left_neighbor_iff can).mp h
    have le := can.proper en mem
    rw [e] at mem
    simp only [Option.toList_none, List.append_nil, List.mem_append, Option.mem_toList] at mem
    rcases mem with (m | m) | m
    · have := loc.below en m
      omega
    · have := loc.right en m
      omega
    · have := loc.above en m
      omega

/-- The node found by a first page starts with it, in any table. -/
lemma find_by_start_sound {en : ExtentNode} {key : ulong}
    (h : extent_rb_find_by_start root key = some en) :
    en ∈ root.inorder ∧ en.ex.starting_phys_addr = key := by
  obtain ⟨mem, h1, h2⟩ := Tree.find_sound h
  simp only [decide_eq_false_iff_not, gt_iff_lt, BitVec.not_lt] at h1 h2
  exact ⟨mem, BitVec.le_antisymm h1 h2⟩

/-- The search by first page finds the node whose extent starts with the page. -/
lemma find_by_start_iff (can : Canonical lo hi root.inorder) {en : ExtentNode} {key : ulong} :
    extent_rb_find_by_start root key = some en ↔
      en ∈ root.inorder ∧ en.ex.starting_phys_addr = key := by
  constructor
  · exact find_by_start_sound
  · rintro ⟨mem, rfl⟩
    refine Tree.find_eq_some (by simp) (fun a lt => ?_) (fun a lt => ?_) can.lo_lt mem
    · simp only [ExtentNode.lo, decide_eq_false_iff_not, decide_eq_true_eq, BitVec.lt_def, gt_iff_lt]
        at lt ⊢
      omega
    · simpa [ExtentNode.lo, BitVec.lt_def] using lt

/-- An extent that starts at `p + 1` starts right after `p`, unless `p + 1` wraps to a covered page. -/
lemma start_succ (nowrap : p + 1 = 0 → (0 : ulong) ∉ pages root.inorder) {en : ExtentNode}
    (mem : en ∈ root.inorder) (h : en.ex.starting_phys_addr = p + 1) : en.lo = p.toNat + 1 := by
  have ne : p + 1 ≠ 0 := by
    intro w
    refine nowrap w ⟨en, mem, contains_iff.mpr ⟨?_, Nat.zero_le _⟩⟩
    rw [h, w]
  rw [ExtentNode.lo, h]
  bv_omega

/-- The nodes found next to a page are the ones that touch it, unless the page is the last of the
address space and an extent starts at page 0. -/
lemma find_all_adjacent_eq (can : Canonical lo hi root.inorder)
    (e : root.inorder = A ++ L.toList ++ R.toList ++ B) (loc : Located p A L R B)
    (nowrap : p + 1 = 0 → (0 : ulong) ∉ pages root.inorder) :
    extent_rb_find_all_adjacent root p = L.toList ++ R.toList := by
  have hs : extent_rb_find_by_start root (p + 1) = R := by
    cases R with
    | some r =>
      have h := loc.right r rfl
      rw [ExtentNode.lo] at h
      exact (find_by_start_iff can).mpr ⟨by simp [e], by bv_omega⟩
    | none =>
      rw [Option.eq_none_iff_forall_ne_some]
      intro en h
      obtain ⟨mem, h⟩ := find_by_start_sound h
      have le := can.proper en mem
      have start := start_succ nowrap mem h
      rw [e] at mem
      simp only [Option.toList_none, List.append_nil, List.mem_append, Option.mem_toList] at mem
      rcases mem with (m | m) | m
      · have := loc.below en m
        omega
      · have := loc.left en m
        omega
      · have := loc.above en m
        omega
  rw [extent_rb_find_all_adjacent, find_left_neighbor_eq can e loc, hs]

/-- A node found for a page contains it, in any table. -/
lemma find_containing_sound {en : ExtentNode} (h : extent_rb_find_containing root p = some en) :
    en ∈ root.inorder ∧ extent_pte_contains en.ex p := by
  rw [extent_rb_find_containing] at h
  cases hd : root.descend (fun n => n.ex.starting_phys_addr ≤ p) none with
  | none => simp [hd] at h
  | some best =>
    obtain ⟨mem, start⟩ := Tree.descend_sound hd
    simp only [hd, Option.ite_none_right_eq_some, Option.some.injEq] at h
    obtain ⟨ending, rfl⟩ := h
    exact ⟨mem, contains_iff.mpr ⟨by simpa [BitVec.le_def] using start, ending⟩⟩

/-- The node found for a page is the one that contains it. -/
lemma find_containing_iff (can : Canonical lo hi root.inorder) {en : ExtentNode} :
    extent_rb_find_containing root p = some en ↔
      en ∈ root.inorder ∧ extent_pte_contains en.ex p := by
  constructor
  · exact find_containing_sound
  · rintro ⟨mem, h⟩
    obtain ⟨start, ending⟩ := contains_iff.mp h
    have hd : root.descend (fun n => n.ex.starting_phys_addr ≤ p) none = some en := by
      refine descend_reaches can (fun a b lt h => ?_) mem ?_ fun b _ far => ?_
      · simp only [ExtentNode.lo, decide_eq_true_eq, BitVec.le_def] at lt h ⊢
        omega
      · simpa [BitVec.le_def] using start
      · simp only [ExtentNode.lo, ExtentNode.hi, decide_eq_true_eq, BitVec.le_def] at far ⊢
        omega
    rw [extent_rb_find_containing, hd]
    exact if_pos ending

/-- The descent to the page finds the extent that contains it. -/
lemma find_containing_eq {en : ExtentNode} (can : Canonical lo hi root.inorder)
    (e : root.inorder = A ++ en :: B) (cov : Covering p A en B) :
    extent_rb_find_containing root p = some en :=
  (find_containing_iff can).mpr ⟨by simp [e], contains_iff.mpr ⟨cov.start, cov.ending⟩⟩

/-- Next to a page that is covered no node is found. -/
lemma find_all_adjacent_covered {en : ExtentNode} (can : Canonical lo hi root.inorder)
    (e : root.inorder = A ++ en :: B) (cov : Covering p A en B)
    (nowrap : p + 1 = 0 → (0 : ulong) ∉ pages root.inorder) :
    extent_rb_find_all_adjacent root p = [] := by
  have hs := cov.start
  have he := cov.ending
  have right : extent_rb_find_by_start root (p + 1) = none := by
    rw [Option.eq_none_iff_forall_ne_some]
    intro n h
    obtain ⟨mem, h⟩ := find_by_start_sound h
    have hn := start_succ nowrap mem h
    have le := can.proper n mem
    rw [e] at mem
    rcases cov.clear mem with below | rfl | above
    · omega
    · omega
    · omega
  have left : extent_rb_find_left_neighbor root p = none := by
    rw [Option.eq_none_iff_forall_ne_some]
    intro n h
    obtain ⟨mem, lt, hn⟩ := find_left_neighbor_sound h
    rw [e] at mem
    rcases cov.clear mem with below | rfl | above
    · omega
    · omega
    · omega
  rw [extent_rb_find_all_adjacent, left, right]
  rfl

/-- No node is found for a page that none contains, in any table. -/
lemma find_containing_none (np : p ∉ pages root.inorder) :
    extent_rb_find_containing root p = none := by
  rw [Option.eq_none_iff_forall_ne_some]
  intro en h
  exact np ⟨en, find_containing_sound h⟩

end Find

end CS519.Extents
