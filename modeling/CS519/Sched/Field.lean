import Mathlib.Data.Rat.Init
import CS519.CText

/-!
# Reading a field of `/proc/<pid>/sched`

The benchmark reads its virtual time back through `read_sched_field`, which looks for the first line that
begins with a text and scans the number behind the colon. The kernel prints the names of some fields with a
dotted prefix, and the name of one field can begin with that of another.

`finds_field_iff` says in which files a field is found: those in which the first line that begins with its
name is that of the field, as far as the number on it goes.
-/

namespace CS519.Sched
open CText

/-- The doubles of the program: its `-1.0`, and what `%lf` reads at the start of a text. -/
structure Doubles (V : Type) where
  minus_one : V
  scan_lf : List Char → Option V

section Functions
variable {V : Type} (D : Doubles V)

/-- `sscanf(line, "%*s : %lf", &val)`. -/
def sscanf_val (line : List Char) : Option V := do
  let s ← scan_word (c_string line)
  let s ← scan_char ':' (scan_spaces s)
  D.scan_lf (scan_spaces s)

/-- The loop over the lines of a file, for at most `fuel` rounds. -/
def scan_lines (field : List Char) : ℕ → List Char → V
  | 0, _ => D.minus_one
  | fuel + 1, f =>
    match fgets 256 f with
    | none => D.minus_one
    | some (line, f) =>
      if strncmp_eq line field (strlen field) then (sscanf_val D line).getD D.minus_one
      else scan_lines field fuel f

/-- It fits the 64 bytes of `path`. -/
def sched_path (tid : ℤ) : String := "/proc/self/task/" ++ toString tid ++ "/sched"

/-- `fopen` gives the text of a file. Every round of the loop reads a character at least. -/
def read_sched_field (fopen : String → Option (List Char)) (tid : ℤ) (field : List Char) : V :=
  match fopen (sched_path tid) with
  | none => D.minus_one
  | some f => scan_lines D field (f.length + 1) f

end Functions

/-- A line of the file: a name, spaces, a colon, spaces and a number, which `%lf` reads up to the end of
the line. -/
structure Line {V : Type} (D : Doubles V) where
  name : Word
  before : ℕ
  after : ℕ
  number : Word
  value : V
  no_colon : ':' ∉ number.chars
  reads : ∀ tail, tail = [] ∨ tail = ['\n'] → D.scan_lf (number.chars ++ tail) = some value
  short : name.chars.length + before + 1 + after + number.chars.length < 256

section Lines
variable {V : Type} {D : Doubles V}

/-- A line without its newline. -/
def Line.content (l : Line D) : List Char :=
  l.name.chars ++ (.replicate l.before ' ' ++ ':' :: (.replicate l.after ' ' ++ l.number.chars))

/-- The file with the given lines. -/
def text (lines : List (Line D)) : List Char := lines.flatMap fun l => l.content ++ ['\n']

/-- The line is that of the field: its name is the one of the field, alone or after a dotted prefix. -/
def named (field : Word) (l : Line D) : Bool :=
  l.name.chars = field.chars ∨ '.' :: field.chars <:+ l.name.chars

/-- The raw comparison: the line begins with the name of the field. -/
def begins (field : Word) (l : Line D) : Bool := field.chars <+: l.content

/-- The value is the number on the first line of the field, and -1 exactly if there is no such line. -/
structure FindsField (lines : List (Line D)) (field : Word) (val : V) : Prop where
  number : ∀ l, lines.find? (named field) = some l → val = l.value
  absent : val = D.minus_one ↔ ∀ l ∈ lines, named field l = false

/-- The first line that begins with the name of the field stands for the first line of the field. -/
def PrefixFinds (lines : List (Line D)) (field : Word) : Prop :=
  match lines.find? (named field) with
  | some l => l.value ≠ D.minus_one ∧
    ∃ b, lines.find? (begins field) = some b ∧ b.before ≠ 0 ∧ b.value = l.value
  | none => ∀ b, lines.find? (begins field) = some b → b.before = 0 ∨ b.value = D.minus_one

variable (l : Line D)

/-- A line of the file fits the buffer. -/
lemma length_content : l.content.length < 256 := by
  have := l.short
  simp only [Line.content, List.length_append, List.length_cons, List.length_replicate]
  omega

/-- A line holds no newline and no `NUL`. -/
lemma mem_content {l : Line D} {c : Char} (mem : c ∈ l.content) : c ≠ '\n' ∧ c ≠ NUL := by
  have word : ∀ w : Word, c ∈ w.chars → c ≠ '\n' ∧ c ≠ NUL := by
    intro w mem
    refine ⟨?_, w.no_nul c mem⟩
    rintro rfl
    exact absurd (w.visible _ mem) (by decide)
  simp only [Line.content, List.mem_append, List.mem_cons, List.mem_replicate] at mem
  rcases mem with h | ⟨_, rfl⟩ | rfl | ⟨_, rfl⟩ | h
  · exact word l.name h
  · decide
  · decide
  · decide
  · exact word l.number h

/-- What is read of a line is a C string. -/
lemma c_string_line {tail : List Char} (h : tail = [] ∨ tail = ['\n']) :
    ∀ c ∈ l.content ++ tail, c ≠ NUL := by
  intro c mem
  cases List.mem_append.mp mem with
  | inl mem => exact (mem_content mem).2
  | inr mem =>
    rcases h with rfl | rfl
    · cases mem
    · rw [List.mem_singleton.mp mem]
      decide

/-- Behind a colon stands the number. -/
lemma scan_number {tail : List Char} (h : tail = [] ∨ tail = ['\n']) :
    D.scan_lf (scan_spaces (.replicate l.after ' ' ++ (l.number.chars ++ tail))) = some l.value := by
  rw [scan_spaces_replicate, scan_spaces_word]
  exact l.reads tail h

/-- No colon is left where the first one was taken for a part of the name. -/
lemma no_second_colon {tail : List Char} (h : tail = [] ∨ tail = ['\n']) :
    scan_char ':' (scan_spaces
      ((List.replicate l.after ' ' ++ (l.number.chars ++ tail)).dropWhile fun c => !isspace c)) =
        none := by
  cases l.after with
  | zero =>
    -- the number goes with the name as well
    have visible : ∀ c ∈ l.number.chars, (!isspace c) = true := fun c mem => by
      simp [l.number.visible c mem]
    rw [List.replicate_zero, List.nil_append, List.dropWhile_append_of_pos visible]
    rcases h with rfl | rfl <;> rfl
  | succ n =>
    rw [List.replicate_succ, List.cons_append, List.dropWhile_cons_of_neg (by decide),
      ← List.cons_append, ← List.replicate_succ, scan_spaces_replicate, scan_spaces_word]
    obtain ⟨c, chars, e⟩ := List.exists_cons_of_ne_nil l.number.ne
    rw [e, List.cons_append, scan_char, if_neg ?_]
    rintro rfl
    exact l.no_colon (by simp [e])

/-- The scan of a line with a space before its colon reads the number. Without one the colon goes with
the name. -/
lemma sscanf_line {tail : List Char} (h : tail = [] ∨ tail = ['\n']) :
    sscanf_val D (l.content ++ tail) = if l.before = 0 then none else some l.value := by
  have number := scan_number l h
  have taken := no_second_colon l h
  rw [sscanf_val, c_string_self (c_string_line l h), Line.content, List.append_assoc, scan_word_append]
  simp only [List.append_assoc, List.cons_append, Option.bind_eq_bind, Option.bind_some]
  cases before : l.before with
  | succ n =>
    rw [List.replicate_succ, List.cons_append, List.dropWhile_cons_of_neg (by decide),
      ← List.cons_append, ← List.replicate_succ, scan_spaces_replicate,
      scan_spaces_cons (by decide), scan_char, if_pos rfl, Option.bind_some, number, if_neg n.succ_ne_zero]
  | zero =>
    rw [List.replicate_zero, List.nil_append, List.dropWhile_cons_of_pos (by decide), taken,
      Option.bind_none, if_pos rfl]

/-- The raw comparison of what is read of a line. -/
lemma strncmp_line (field : Word) {tail : List Char} (h : tail = [] ∨ tail = ['\n']) :
    strncmp_eq (l.content ++ tail) field.chars (strlen field.chars) = begins field l := by
  rw [Bool.eq_iff_iff, strncmp_word field (c_string_line l h), begins, decide_eq_true_iff]
  rcases h with rfl | rfl
  · rw [List.append_nil]
  · exact field.prefix_line

/-- What the scan leaves in `val`, from the line that the loop ends at. -/
def scanned : Option (Line D) → V
  | none => D.minus_one
  | some b => if b.before = 0 then D.minus_one else b.value

/-- The search returns -1 if no line matches, or the one that does has no blank before its colon or the
number -1. -/
lemma scanned_eq_minus_one {o : Option (Line D)} :
    scanned o = D.minus_one ↔ ∀ b, o = some b → b.before = 0 ∨ b.value = D.minus_one := by
  cases o with
  | none => simp [scanned]
  | some b =>
    by_cases before : b.before = 0
    · simp [scanned, before]
    · simp [scanned, before]

/-- The search returns another number exactly if the line that matches has it, and a blank before its
colon. -/
lemma scanned_eq {o : Option (Line D)} {v : V} (ne : v ≠ D.minus_one) :
    scanned o = v ↔ ∃ b, o = some b ∧ b.before ≠ 0 ∧ b.value = v := by
  cases o with
  | none => simp [scanned, ne.symm]
  | some b =>
    by_cases before : b.before = 0
    · simp [scanned, before, ne.symm]
    · simp [scanned, before]

section Loop
variable {field : Word} {f rest : List Char} {fuel : ℕ}

/-- A round that reads a line, with or without its newline. -/
lemma scan_lines_line {tail : List Char} (h : tail = [] ∨ tail = ['\n'])
    (read : fgets 256 f = some (l.content ++ tail, rest)) :
    scan_lines D field.chars (fuel + 1) f =
      if begins field l then scanned (some l) else scan_lines D field.chars fuel rest := by
  rw [scan_lines, read]
  simp only [strncmp_line l field h, sscanf_line l h, scanned]
  cases l.before <;> rfl

/-- A round that reads the newline that an earlier one has left. -/
lemma scan_lines_newline :
    scan_lines D field.chars (fuel + 1) ('\n' :: f) = scan_lines D field.chars fuel f := by
  have read : fgets 256 ('\n' :: f) = some (['\n'], f) := rfl
  have differs : ¬strncmp_eq ['\n'] field.chars (strlen field.chars) = true := by
    rw [strncmp_word field (List.forall_mem_singleton.mpr (by decide)), ← List.nil_append ['\n'],
      field.prefix_line, List.prefix_nil]
    exact field.ne
  rw [scan_lines, read]
  exact if_neg differs

end Loop

/-- The loop ends at the first line that begins with the name of the field. -/
lemma scan_lines_eq (field : Word) {lines : List (Line D)} {fuel : ℕ}
    (enough : (text lines).length < fuel) :
    scan_lines D field.chars fuel (text lines) = scanned (lines.find? (begins field)) := by
  induction lines generalizing fuel with
  | nil =>
    obtain ⟨fuel, rfl⟩ := Nat.exists_eq_succ_of_ne_zero (Nat.ne_zero_of_lt enough)
    rfl
  | cons l lines ih =>
    obtain ⟨fuel, rfl⟩ := Nat.exists_eq_succ_of_ne_zero (Nat.ne_zero_of_lt enough)
    have plain : ∀ c ∈ l.content, c ≠ '\n' := fun c mem => (mem_content mem).1
    have cons : text (l :: lines) = l.content ++ '\n' :: text lines := by simp [text]
    have ne : text (l :: lines) ≠ [] := by simp [cons]
    have length : (text (l :: lines)).length = l.content.length + 1 + (text lines).length := by
      rw [cons, List.length_append, List.length_cons]
      omega
    have step : scan_lines D field.chars (fuel + 1) (text (l :: lines)) =
        if begins field l then scanned (some l) else scanned (lines.find? (begins field)) := by
      by_cases short : l.content.length < 255
      · have read : fgets 256 (text (l :: lines)) = some (l.content ++ ['\n'], text lines) := by
          rw [fgets, if_neg ne, cons, get_line_short plain short]
        rw [scan_lines_line l (.inr rfl) read, ih (by omega)]
      · -- the newline is left for a round of its own
        have full : l.content.length = 255 := by
          have := length_content l
          omega
        have read : fgets 256 (text (l :: lines)) = some (l.content ++ [], '\n' :: text lines) := by
          rw [fgets, if_neg ne, cons, List.append_nil, ← get_line_full plain, full]
        obtain ⟨fuel, rfl⟩ : ∃ k, fuel = k + 1 := ⟨fuel - 1, by omega⟩
        rw [scan_lines_line l (.inl rfl) read, scan_lines_newline, ih (by omega)]
    rw [step, List.find?_cons]
    cases begins field l <;> rfl

/-- A field is found exactly if the first line that begins with its name has a space before the colon and
the number of the field on it, other than -1; a field that is not there, if no line begins with its name or
the first that does is not read or has the number -1. -/
theorem finds_field_iff {fopen : String → Option (List Char)} {tid : ℤ} {lines : List (Line D)}
    (file : fopen (sched_path tid) = some (text lines)) (field : Word) :
    FindsField lines field (read_sched_field D fopen tid field.chars) ↔ PrefixFinds lines field := by
  have absent : (∀ l ∈ lines, named field l = false) ↔ lines.find? (named field) = none := by
    simp [List.find?_eq_none]
  have val : read_sched_field D fopen tid field.chars = scanned (lines.find? (begins field)) := by
    rw [read_sched_field, file]
    exact scan_lines_eq field (Nat.lt_succ_self _)
  rw [val, PrefixFinds]
  cases found : lines.find? (named field) with
  | none =>
    rw [found] at absent
    constructor
    · intro finds
      exact scanned_eq_minus_one.mp (finds.absent.mpr (absent.mpr rfl))
    · intro first
      refine ⟨fun l h => ?_, iff_of_true (scanned_eq_minus_one.mpr first) (absent.mpr rfl)⟩
      rw [found] at h
      cases h
  | some l =>
    rw [found] at absent
    have there : ¬∀ l ∈ lines, named field l = false := absent.not.mpr (Option.some_ne_none l)
    constructor
    · intro finds
      have number := finds.number l found
      have ne : l.value ≠ D.minus_one := by
        rw [← number]
        exact finds.absent.not.mpr there
      exact ⟨ne, (scanned_eq ne).mp number⟩
    · rintro ⟨ne, first⟩
      have number := (scanned_eq ne).mpr first
      refine ⟨fun l' h => ?_, iff_of_false (by rwa [number]) there⟩
      rw [found] at h
      cases h
      exact number

end Lines

section Recorded

/-- The digits at the start of a text. -/
def digits (s : List Char) : List Char := s.takeWhile Char.isDigit

/-- A number by its digits before and after the point. -/
def decimal (int frac : List Char) : ℚ := Nat.ofDigitChars 10 (int ++ frac) 0 / 10 ^ frac.length

/-- Doubles as rational numbers, for texts without sign and exponent. -/
def decimals : Doubles ℚ where
  minus_one := -1
  scan_lf s :=
    match digits s, s.dropWhile Char.isDigit with
    | [], _ => none
    | int, '.' :: rest => some (decimal int (digits rest))
    | int, _ => some (decimal int [])

def vruntime : Word := ⟨"vruntime".toList, by decide, by decide⟩

/-- The virtual time as the kernel prints it. -/
def se_vruntime : Line decimals where
  name := ⟨"se.vruntime".toList, by decide, by decide⟩
  before := 34
  after := 18
  number := ⟨"5.0".toList, by decide, by decide⟩
  value := decimal ['5'] ['0']
  no_colon := by decide
  reads := by rintro _ (rfl | rfl) <;> rfl
  short := by decide

/-- A file with the line `se.vruntime` only, of which `vruntime` is wanted. -/
lemma finds_field_iff_se_vruntime :
    FindsField [se_vruntime] vruntime
        (read_sched_field decimals (fun _ => some (text [se_vruntime])) 1 vruntime.chars) ↔
      PrefixFinds [se_vruntime] vruntime :=
  finds_field_iff rfl vruntime

/-- No line begins with `vruntime`, so the result is -1, as in the recorded runs. -/
theorem not_finds_vruntime :
    ¬FindsField [se_vruntime] vruntime
      (read_sched_field decimals (fun _ => some (text [se_vruntime])) 1 vruntime.chars) := by
  intro finds
  have unread : read_sched_field decimals (fun _ => some (text [se_vruntime])) 1 vruntime.chars = -1 :=
    scan_lines_eq vruntime (Nat.lt_succ_self _)
  have absent := finds.absent.mp unread se_vruntime (List.mem_singleton_self _)
  exact absurd absent (by decide)

end Recorded

end CS519.Sched
