import CS519.CInt
import CS519.Extents.Canonical

/-!
# The extent report

`extent_rb_print` logs a line for every extent and the totals, which it adds up in two `int`s, and
`check_tlb.sh` takes the totals out of the log and subtracts them. For a table that tracks a set of pages
the totals are the numbers of maximal runs and of pages of that set, as long as they fit an `int`: the
lengths that are added are `long`s (`report_exact_iff`).
-/

namespace CS519.Extents
open CInt (INT_MAX)
open Runs ExtentNode

abbrev int := BitVec 32

/-- A line of the kernel log. -/
inductive Line where
  | begin_extent_report
  | extent (pid i : int) (start ending : ulong) (pages : Int)
  | summary (pid total_extents total_pages : int)
deriving DecidableEq, Repr

namespace Line

def total_extents : Line → Option int
  | summary _ total_extents _ => some total_extents
  | _ => none

def total_pages : Line → Option int
  | summary _ _ total_pages => some total_pages
  | _ => none

end Line

section Print
variable (pid : int)

/-- The loop over the nodes from `rb_first` on by `rb_next`: the lines, and `i` and `total_pages` at its
end. -/
def print_loop : List ExtentNode → int → int → List Line × int × int
  | [], i, total_pages => ([], i, total_pages)
  | en :: rest, i, total_pages =>
    let line := .extent pid i en.ex.starting_phys_addr en.ex.ending_phys_addr en.ex.pgcount
    -- `int += long` adds as `long` and keeps the low 32 bits
    let (lines, totals) := print_loop rest (i + 1) (.ofInt 32 (total_pages.toInt + en.ex.pgcount))
    (line :: lines, totals)

/-- Called by the report system call. Returns what is logged. -/
def extent_rb_print (pt : ExtentPagetable) : Kern (List Line) :=
  with_lock do
    let (lines, i, total_pages) := print_loop pid pt.root.inorder 0 0
    return .begin_extent_report :: lines ++ [.summary pid i total_pages]

end Print

/-! ## `check_tlb.sh` -/

/-- The last count of the log. The pattern is for digits, so a line with a minus sign is passed over. -/
def last_count (count : Line → Option int) (log : List Line) : Option ℤ :=
  (((log.filterMap count).map BitVec.toInt).filter (0 ≤ ·)).getLast?

/-- The difference that the script prints. A variable that is empty counts as 0. -/
def tlb_save (log : List Line) : ℤ :=
  (last_count Line.total_pages log).getD 0 - (last_count Line.total_extents log).getD 0

/-- The page numbers of a set of pages. -/
def numbers_of (s : Finset ulong) : Set ℕ := {x | ∃ p ∈ s, p.toNat = x}

/-- The number of maximal runs of consecutive pages. -/
noncomputable def number_of_runs (s : Finset ulong) : ℕ :=
  {r : ℕ × ℕ | MaximalRun (numbers_of s) r.1 r.2}.ncard

/-- The totals of a report are those of the pages, and so is the saving computed from the log that ends
with it, which is not negative. -/
def ReportExact (report : List Line) (s : Finset ulong) : Prop :=
  (∃ pid total_extents total_pages,
    report.getLast? = some (.summary pid total_extents total_pages) ∧
      total_extents.toInt = number_of_runs s ∧ total_pages.toInt = s.card) ∧
  ∀ log, tlb_save (log ++ report) = (s.card : ℤ) - number_of_runs s ∧ 0 ≤ tlb_save (log ++ report)

section Totals
variable {pid : int}

/-- The loop counts the extents and adds up the pages, in 32 bits. -/
lemma print_loop_totals (l : List ExtentNode) (i : int) (total : ℤ) :
    (print_loop pid l i (.ofInt 32 total)).2 =
      (i + .ofNat 32 l.length, .ofInt 32 (total + (l.map (·.ex.pgcount)).sum)) := by
  induction l generalizing i total with
  | nil => simp [print_loop]
  | cons en rest ih =>
    have add : BitVec.ofInt 32 ((BitVec.ofInt 32 total).toInt + en.ex.pgcount) =
        BitVec.ofInt 32 (total + en.ex.pgcount) := by
      rw [BitVec.ofInt_add, BitVec.ofInt_toInt, ← BitVec.ofInt_add]
    simp only [print_loop, add, ih, List.length_cons, List.map_cons, List.sum_cons, Prod.mk.injEq]
    refine ⟨?_, by rw [Int.add_assoc]⟩
    rw [BitVec.add_assoc, Nat.add_comm, BitVec.ofNat_add]
    rfl

/-- The last line of the report has the totals. -/
lemma extent_rb_print_eq (pid : int) (pt : ExtentPagetable) (m : Machine) :
    ∃ lines, (extent_rb_print pid pt m).1 = lines ++
      [.summary pid (.ofNat 32 pt.root.inorder.length)
        (.ofInt 32 (pt.root.inorder.map (·.ex.pgcount)).sum)] := by
  have totals : (print_loop pid pt.root.inorder 0 0).2 =
      (.ofNat 32 pt.root.inorder.length, .ofInt 32 (pt.root.inorder.map (·.ex.pgcount)).sum) := by
    refine (print_loop_totals pt.root.inorder 0 0).trans ?_
    rw [zero_add, zero_add]
  have run : (extent_rb_print pid pt m).1 =
      .begin_extent_report :: (print_loop pid pt.root.inorder 0 0).1 ++
        [.summary pid (print_loop pid pt.root.inorder 0 0).2.1
          (print_loop pid pt.root.inorder 0 0).2.2] := rfl
  rw [totals] at run
  exact ⟨_, run⟩

/-- A count that is printed without a sign is the last one. -/
lemma last_count_append {count : Line → Option int} {line : Line} {n : int} (log : List Line)
    (counted : count line = some n) (nonneg : 0 ≤ n.toInt) :
    last_count count (log ++ [line]) = some n.toInt := by
  simp [last_count, counted, nonneg]

/-- Totals that fit are printed as they are. -/
lemma reportExact_of_fits {s : Finset ulong} {lines : List Line} (fits : s.card ≤ INT_MAX)
    (le : number_of_runs s ≤ s.card) :
    ReportExact (lines ++ [.summary pid (.ofNat 32 (number_of_runs s)) (.ofInt 32 s.card)]) s := by
  unfold INT_MAX at fits
  have runs : (BitVec.ofNat 32 (number_of_runs s)).toInt = number_of_runs s := by
    rw [← BitVec.ofInt_natCast]
    exact BitVec.toInt_ofInt_eq_self (by decide) (by omega) (by omega)
  have pages : (BitVec.ofInt 32 s.card).toInt = s.card :=
    BitVec.toInt_ofInt_eq_self (by decide) (by omega) (by omega)
  refine ⟨⟨_, _, _, List.getLast?_concat, runs, pages⟩, fun log => ?_⟩
  have save : tlb_save (log ++ (lines ++
      [.summary pid (.ofNat 32 (number_of_runs s)) (.ofInt 32 s.card)])) =
        (s.card : ℤ) - number_of_runs s := by
    rw [← List.append_assoc, tlb_save, last_count_append _ rfl (by rw [pages]; omega),
      last_count_append _ rfl (by rw [runs]; omega), Option.getD_some, Option.getD_some, pages, runs]
  rw [save]
  exact ⟨rfl, by omega⟩

/-- A total that does not fit is not printed. -/
lemma ReportExact.fits {s : Finset ulong} {report : List Line} (exact : ReportExact report s) :
    s.card ≤ INT_MAX := by
  obtain ⟨⟨_, _, total, _, _, pages⟩, _⟩ := exact
  have lt := BitVec.two_mul_toInt_lt (x := total)
  unfold INT_MAX
  omega

end Totals

/-! ## The totals of a tracked set -/

section Tracked
variable {l : List ExtentNode} {s : Finset ulong}

/-- The numbers that the extents cover are those of the tracked pages. -/
lemma cover_eq_numbers (e : pages l = s) : cover lo hi l = numbers_of s := by
  ext x
  rw [mem_cover_iff_page, e]
  rfl

/-- There is one extent for every maximal run. -/
lemma Wf.number_of_runs_eq (wf : Wf l) (e : pages l = s) : number_of_runs s = l.length := by
  rw [number_of_runs, ← cover_eq_numbers e]
  exact wf.canonical.ncard_maximalRun

/-- The counts of the extents add up to the number of pages. -/
lemma Wf.sum_pgcount (wf : Wf l) (e : pages l = s) :
    (l.map (·.ex.pgcount)).sum = (s.card : ℤ) := by
  have numbers : numbers_of s = ((s.image BitVec.toNat : Finset ℕ) : Set ℕ) := by
    ext x
    simp [numbers_of]
  have card : s.card = (l.map fun en => en.hi + 1 - en.lo).sum := by
    rw [← wf.canonical.ncard_cover.2, cover_eq_numbers e, numbers, Set.ncard_coe_finset,
      Finset.card_image_of_injective s fun _ _ => BitVec.eq_of_toNat_eq]
  rw [card, Nat.cast_list_sum, List.map_map]
  refine congrArg List.sum (List.map_congr_left fun en mem => ?_)
  have le := wf.canonical.proper en mem
  rw [wf.counts en mem, Function.comp_apply]
  omega

/-- There are no more runs than pages. -/
lemma Wf.runs_le_card (wf : Wf l) (e : pages l = s) : number_of_runs s ≤ s.card := by
  have sum := wf.sum_pgcount e
  have le : (l.map fun _ => (1 : ℤ)).sum ≤ (l.map (·.ex.pgcount)).sum := by
    refine List.sum_le_sum fun en mem => ?_
    have proper := wf.canonical.proper en mem
    rw [wf.counts en mem]
    omega
  rw [wf.number_of_runs_eq e]
  simpa [sum] using le

/-- The report of a table that tracks a set. -/
lemma Wf.printed {pt : ExtentPagetable} (wf : Wf pt.root.inorder) (e : pages pt.root.inorder = s)
    (pid : int) (m : Machine) : ∃ lines, (extent_rb_print pid pt m).1 =
      lines ++ [.summary pid (.ofNat 32 (number_of_runs s)) (.ofInt 32 s.card)] := by
  obtain ⟨lines, run⟩ := extent_rb_print_eq pid pt m
  exact ⟨lines, by rw [run, wf.number_of_runs_eq e, wf.sum_pgcount e]⟩

end Tracked

/-- After any calls that insert untracked pages and remove any pages, where every allocation succeeds and
no `p + 1` wraps onto a tracked page, the report and the saving computed from it are exact if and only if
the number of tracked pages fits an `int`. -/
theorem report_exact_iff (rb : Rebalance ExtentNode) (pid : int) (h : List Op) (legal : Legal h) :
    let w := World.after rb (fun _ => true) h
    ReportExact (extent_rb_print pid w.pt w.m).1 (tracked h) ↔ (tracked h).card ≤ INT_MAX := by
  intro w
  obtain ⟨wf, covered, _, _⟩ := refines_after rb legal
  obtain ⟨lines, run⟩ := Wf.printed wf covered pid w.m
  rw [run]
  exact ⟨fun exact => exact.fits, fun fits => reportExact_of_fits fits (wf.runs_le_card covered)⟩

/-- Two runs of three pages. -/
theorem report_exact_iff_two_runs :
    ReportExact (extent_rb_print 7
      (World.after .plain (fun _ => true) [.insert 5, .insert 9, .insert 6]).pt
      (World.after .plain (fun _ => true) [.insert 5, .insert 9, .insert 6]).m).1
      (tracked [.insert 5, .insert 9, .insert 6]) :=
  (report_exact_iff .plain 7 [.insert 5, .insert 9, .insert 6] (by decide)).mpr (by decide)

/-- The insertions of `n` pages in ascending order. -/
def inserts (first n : ℕ) : List Op := (List.range' first n).map fun i => .insert (.ofNat 64 i)

/-- Ascending insertions are of untracked pages and do not wrap. -/
lemma legal_inserts {first n : ℕ} {s : Finset ulong} (le : first + n ≤ 2 ^ 63)
    (below : ∀ p ∈ s, p.toNat < first) :
    Always track (fun s op => op.untracked s ∧ op.nowrap s) s (inserts first n) ∧
      (run track s (inserts first n)).card = s.card + n := by
  induction n generalizing first s with
  | zero => exact ⟨trivial, rfl⟩
  | succ n ih =>
    have number : (BitVec.ofNat 64 first).toNat = first := by
      rw [BitVec.toNat_ofNat, Nat.mod_eq_of_lt (by omega)]
    have new : BitVec.ofNat 64 first ∉ s := by
      intro mem
      have := below _ mem
      omega
    have next : ∀ p ∈ insert (BitVec.ofNat 64 first) s, p.toNat < first + 1 := by
      intro p mem
      rcases Finset.mem_insert.mp mem with rfl | mem
      · omega
      · have := below p mem
        omega
    obtain ⟨legal, card⟩ := ih (by omega) next
    refine ⟨⟨⟨new, fun wrap => ?_⟩, legal⟩, ?_⟩
    · bv_omega
    · rw [Finset.card_insert_of_notMem new] at card
      exact card.trans (by omega)

/-- The total of 2³¹ pages is printed with a minus sign. -/
theorem not_report_exact : ¬∀ (rb : Rebalance ExtentNode) (pid : int) (h : List Op), Untracked h →
    ReportExact (extent_rb_print pid (World.after rb (fun _ => true) h).pt
      (World.after rb (fun _ => true) h).m).1 (tracked h) := by
  intro all
  have many : 0 + 2 ^ 31 ≤ 2 ^ 63 := by norm_num
  obtain ⟨legal, card⟩ := legal_inserts (s := ∅) many (by simp)
  have exact := all .plain 7 (inserts 0 (2 ^ 31)) (legal_iff.mp legal).1
  have fits := exact.fits
  rw [tracked, card] at fits
  exact absurd fits (by decide)

end CS519.Extents
