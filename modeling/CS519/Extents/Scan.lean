import CS519.Extents.Search

/-!
# The searches as linear scans

The three searches descend along one path of the tree, remember a candidate and check its end only at
the bottom. `scan_containing`, `scan_ending_before` and `scan_touching` say what they are for: they go
through the whole in-order sequence. `searches_scan` equates the two on a search tree of any shape whose
extents are disjoint, not adjacent and in ascending order.
-/

namespace CS519.Extents
open Runs ExtentNode

/-- The first extent of a sequence that contains a page. -/
def scan_containing (l : List ExtentNode) (p : ulong) : Option ExtentNode :=
  l.find? fun en => extent_pte_contains en.ex p

/-- The first extent of a sequence that ends right before a page. -/
def scan_ending_before (l : List ExtentNode) (p : ulong) : Option ExtentNode :=
  l.find? fun en => en.hi + 1 = p.toNat

/-- The extents of a sequence that touch a page from either side. -/
def scan_touching (l : List ExtentNode) (p : ulong) : List ExtentNode :=
  l.filter fun en => en.hi + 1 = p.toNat ∨ en.lo = p.toNat + 1

/-- A search returned the extent of a sequence with a property, and nothing iff there is none. -/
structure Finds (r : Option ExtentNode) (l : List ExtentNode) (P : ExtentNode → Prop) : Prop where
  some_iff : ∀ en, r = some en ↔ en ∈ l ∧ P en
  none_iff : r = none ↔ ¬∃ en ∈ l, P en

/-- A search that returns the nodes with a property finds them. -/
lemma Finds.of_iff {r : Option ExtentNode} {l : List ExtentNode} {P : ExtentNode → Prop}
    (h : ∀ en, r = some en ↔ en ∈ l ∧ P en) : Finds r l P := by
  refine ⟨h, ?_⟩
  simp only [Option.eq_none_iff_forall_ne_some, ne_eq, h, not_exists]

/-- What is found is what a scan of the sequence finds. -/
lemma Finds.eq_find? {r : Option ExtentNode} {l : List ExtentNode} {q : ExtentNode → Bool}
    (h : Finds r l fun en => q en) : r = l.find? q := by
  cases e : l.find? q with
  | none =>
    rw [h.none_iff]
    rintro ⟨en, mem, pass⟩
    exact List.find?_eq_none.mp e en mem pass
  | some en => exact (h.some_iff en).mpr ⟨List.mem_of_find?_eq_some e, List.find?_some e⟩

section Searches
variable {root : Tree ExtentNode} (p : ulong)

/-- The first descent finds the extent that contains the page. -/
lemma finds_containing (can : Canonical lo hi root.inorder) :
    Finds (extent_rb_find_containing root p) root.inorder fun en => extent_pte_contains en.ex p :=
  .of_iff fun _ => find_containing_iff can

/-- The second descent finds the extent that ends right before the page. -/
lemma finds_left_neighbor (can : Canonical lo hi root.inorder) :
    Finds (extent_rb_find_left_neighbor root p) root.inorder fun en => en.hi + 1 = p.toNat :=
  .of_iff fun _ => find_left_neighbor_iff can

/-- The search for the right neighbour, by the page after `p`. -/
lemma finds_right_neighbor (can : Canonical lo hi root.inorder) (nowrap : p + 1 ≠ 0) :
    Finds (extent_rb_find_by_start root (p + 1)) root.inorder fun en => en.lo = p.toNat + 1 := by
  refine .of_iff fun en => ?_
  have start : en.ex.starting_phys_addr = p + 1 ↔ en.lo = p.toNat + 1 := by
    rw [ExtentNode.lo]
    constructor
    · intro h
      rw [h]
      bv_omega
    · intro h
      bv_omega
  rw [find_by_start_iff can, start]

end Searches

/-- The extents that touch a page are its neighbours, the left one first. -/
lemma scan_touching_eq {l A B : List ExtentNode} {L R : Option ExtentNode} {p : ulong}
    (can : Canonical lo hi l) (e : l = A ++ L.toList ++ R.toList ++ B) (loc : Located p A L R B) :
    scan_touching l p = L.toList ++ R.toList := by
  have hA : A.filter (fun en => en.hi + 1 = p.toNat ∨ en.lo = p.toNat + 1) = [] := by
    apply List.filter_eq_nil_iff.mpr
    intro a ha
    have le := can.proper a (by simp [e, ha])
    have far := loc.below a ha
    simp only [decide_eq_true_eq]
    omega
  have hB : B.filter (fun en => en.hi + 1 = p.toNat ∨ en.lo = p.toNat + 1) = [] := by
    apply List.filter_eq_nil_iff.mpr
    intro b hb
    have le := can.proper b (by simp [e, hb])
    have far := loc.above b hb
    simp only [decide_eq_true_eq]
    omega
  have hL : L.toList.filter (fun en => en.hi + 1 = p.toNat ∨ en.lo = p.toNat + 1) = L.toList := by
    apply List.filter_eq_self.mpr
    intro a ha
    simp [loc.left a (by simpa using ha)]
  have hR : R.toList.filter (fun en => en.hi + 1 = p.toNat ∨ en.lo = p.toNat + 1) = R.toList := by
    apply List.filter_eq_self.mpr
    intro b hb
    simp [loc.right b (by simpa using hb)]
  rw [scan_touching, e]
  simp only [List.filter_append, hA, hB, hL, hR, List.nil_append, List.append_nil]

/-- On a search tree of disjoint, non-adjacent extents in ascending order the descents agree with the
scans: the one for a covering extent, the one for a left neighbour, and, next to a page that is not
covered and not the last of the address space, the one for both neighbours, the left one first. -/
theorem searches_scan {root : Tree ExtentNode} (can : Canonical lo hi root.inorder) (p : ulong) :
    (extent_rb_find_containing root p = scan_containing root.inorder p ∧
      Finds (extent_rb_find_containing root p) root.inorder fun en =>
        extent_pte_contains en.ex p) ∧
    (extent_rb_find_left_neighbor root p = scan_ending_before root.inorder p ∧
      Finds (extent_rb_find_left_neighbor root p) root.inorder fun en => en.hi + 1 = p.toNat) ∧
    (p + 1 ≠ 0 → p ∉ pages root.inorder →
      extent_rb_find_all_adjacent root p = scan_touching root.inorder p ∧
      ∃ L R : Option ExtentNode, extent_rb_find_all_adjacent root p = L.toList ++ R.toList ∧
        Finds L root.inorder (fun en => en.hi + 1 = p.toNat) ∧
        Finds R root.inorder fun en => en.lo = p.toNat + 1) := by
  have containing := finds_containing p can
  have left := finds_left_neighbor p can
  refine ⟨⟨containing.eq_find?, containing⟩, ⟨Finds.eq_find? (by simpa using left), left⟩, ?_⟩
  intro nowrap np
  refine ⟨?_, _, _, rfl, left, finds_right_neighbor p can nowrap⟩
  obtain ⟨A, B, L, R, e, below, hL, hR, above⟩ := can.locate (mem_pages.not.mp np)
  have loc : Located p A L R B := ⟨below, hL, hR, above⟩
  rw [find_all_adjacent_eq can e loc fun wrap => absurd wrap nowrap, scan_touching_eq can e loc]

/-- Three extents in a chain: every node has at most one child. -/
def chain_of_three : Tree ExtentNode :=
  .node .black .nil ⟨0, ⟨10, [], 4, 0, 3⟩⟩
    (.node .red (.node .black .nil ⟨1, ⟨11, [], 1, 5, 5⟩⟩ .nil) ⟨2, ⟨12, [], 4, 9, 12⟩⟩ .nil)

/-- The three searches in a tree that is a chain. -/
lemma searches_scan_chain :
    extent_rb_find_containing chain_of_three 10 = some ⟨2, ⟨12, [], 4, 9, 12⟩⟩ ∧
      extent_rb_find_left_neighbor chain_of_three 0 = none ∧
      extent_rb_find_all_adjacent chain_of_three 4 =
        [⟨0, ⟨10, [], 4, 0, 3⟩⟩, ⟨1, ⟨11, [], 1, 5, 5⟩⟩] := by
  have can : Canonical lo hi chain_of_three.inorder := ⟨by decide, by decide⟩
  obtain ⟨⟨containing, _⟩, _, _⟩ := searches_scan can 10
  obtain ⟨_, ⟨left, _⟩, _⟩ := searches_scan can 0
  obtain ⟨_, _, adjacent⟩ := searches_scan can 4
  have np : (4 : ulong) ∉ pages chain_of_three.inorder := by
    rw [mem_pages, mem_cover]
    decide
  refine ⟨containing.trans (by decide), left.trans (by decide), ?_⟩
  exact (adjacent (by decide) np).1.trans (by decide)

end CS519.Extents
