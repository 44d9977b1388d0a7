import Mathlib.Data.List.Basic
import Mathlib.Data.List.TakeWhile

/-!
# Texts in C

The functions of `string.h` and `stdio.h` with which a program looks through a text line by line, on
sequences of characters. A C string ends before its first `NUL`. The pieces of a `scanf` format are
functions that return what is left of the input, or `none` where the input does not match.

A `Word` is what `%s` reads. `strncmp_word` and `scan_word_append` say what a comparison with a word and
a scan of one come to, and `get_line_short` and `get_line_full` what `fgets` leaves of a line.
-/

namespace CS519.CText

def NUL : Char := Char.ofNat 0

def isspace (c : Char) : Bool := c == ' ' || 9 ≤ c.toNat && c.toNat ≤ 13

/-- The C string at the start of a buffer. -/
def c_string (s : List Char) : List Char := s.takeWhile (· != NUL)

def strlen (s : List Char) : ℕ := (c_string s).length

/-- `strncmp` returns 0. -/
def strncmp_eq (a b : List Char) (n : ℕ) : Bool := (c_string a).take n == (c_string b).take n

/-- The characters up to a newline, but at most `n`, and the rest of the text. -/
def get_line : ℕ → List Char → List Char × List Char
  | 0, text => ([], text)
  | _ + 1, [] => ([], [])
  | n + 1, c :: text =>
    if c = '\n' then ([c], text)
    else
      let (line, rest) := get_line n text
      (c :: line, rest)

/-- What is read into a buffer of the given size, and the rest of the text. -/
def fgets (size : ℕ) (text : List Char) : Option (List Char × List Char) :=
  if text = [] then none else some (get_line (size - 1) text)

/-- A space in a format. -/
def scan_spaces (s : List Char) : List Char := s.dropWhile isspace

/-- `%*s`. -/
def scan_word (s : List Char) : Option (List Char) :=
  match scan_spaces s with
  | [] => none
  | rest => some (rest.dropWhile fun c => !isspace c)

/-- A character of a format that stands for itself. -/
def scan_char (c : Char) : List Char → Option (List Char)
  | [] => none
  | d :: rest => if d = c then some rest else none

/-- Characters that are neither space nor the end of a string, at least one. -/
structure Word where
  chars : List Char
  ne : chars ≠ []
  plain : chars.all fun c => !isspace c && c != NUL

/-- A word has no white space. -/
lemma Word.visible (w : Word) : ∀ c ∈ w.chars, isspace c = false := by
  intro c mem
  have both := Bool.and_eq_true_iff.mp (List.all_eq_true.mp w.plain c mem)
  simpa using both.1

/-- A word has no zero byte. -/
lemma Word.no_nul (w : Word) : ∀ c ∈ w.chars, c ≠ NUL := by
  intro c mem
  have both := Bool.and_eq_true_iff.mp (List.all_eq_true.mp w.plain c mem)
  simpa using both.2

section Strings
variable {a s : List Char}

/-- A text without a zero byte is its own C string. -/
lemma c_string_self (h : ∀ c ∈ a, c ≠ NUL) : c_string a = a :=
  List.takeWhile_eq_self_iff.mpr fun c mem => by simpa using h c mem

/-- The comparison of a line with a word over the length of the word asks for a prefix. -/
lemma strncmp_word (w : Word) (no_nul : ∀ c ∈ s, c ≠ NUL) :
    strncmp_eq s w.chars (strlen w.chars) = true ↔ w.chars <+: s := by
  rw [strncmp_eq, strlen, c_string_self no_nul, c_string_self w.no_nul, beq_iff_eq, List.take_length,
    List.prefix_iff_eq_take, eq_comm]

/-- A word is no longer a prefix of a line than without the newline. -/
lemma Word.prefix_line (w : Word) : w.chars <+: s ++ ['\n'] ↔ w.chars <+: s := by
  rw [List.prefix_concat_iff, or_iff_right]
  intro e
  have newline := w.visible '\n' (by simp [e])
  exact absurd newline (by decide)

end Strings

section Lines
variable {line rest : List Char} {n : ℕ}

/-- A line that fits is read with its newline. -/
lemma get_line_short (h : ∀ c ∈ line, c ≠ '\n') (lt : line.length < n) :
    get_line n (line ++ '\n' :: rest) = (line ++ ['\n'], rest) := by
  induction line generalizing n with
  | nil =>
    obtain ⟨n, rfl⟩ := Nat.exists_eq_succ_of_ne_zero lt.ne'
    rfl
  | cons c line ih =>
    obtain ⟨n, rfl⟩ := Nat.exists_eq_succ_of_ne_zero (Nat.ne_zero_of_lt lt)
    obtain ⟨hc, hl⟩ := List.forall_mem_cons.mp h
    simp [get_line, hc, ih hl (Nat.lt_of_succ_lt_succ lt)]

/-- Of a line that fills the buffer the newline is left. -/
lemma get_line_full (h : ∀ c ∈ line, c ≠ '\n') :
    get_line line.length (line ++ '\n' :: rest) = (line, '\n' :: rest) := by
  induction line with
  | nil => rfl
  | cons c line ih =>
    obtain ⟨hc, hl⟩ := List.forall_mem_cons.mp h
    simp [get_line, hc, ih hl]

end Lines

section Scans
variable {s : List Char}

/-- Blanks are skipped. -/
@[simp] lemma scan_spaces_replicate (n : ℕ) :
    scan_spaces (.replicate n ' ' ++ s) = scan_spaces s :=
  List.dropWhile_append_of_pos fun c mem => by
    rw [List.eq_of_mem_replicate mem]
    rfl

/-- A space in a format reads nothing where the input goes on with another character. -/
lemma scan_spaces_cons {c : Char} (h : isspace c = false) : scan_spaces (c :: s) = c :: s :=
  List.dropWhile_cons_of_neg (by simp [h])

/-- The skipping of white space ends at a word. -/
@[simp] lemma scan_spaces_word (w : Word) : scan_spaces (w.chars ++ s) = w.chars ++ s := by
  obtain ⟨c, chars, e⟩ := List.exists_cons_of_ne_nil w.ne
  rw [e, List.cons_append]
  exact scan_spaces_cons (w.visible c (by simp [e]))

/-- The scan of a word reads on to the next space. -/
lemma scan_word_append (w : Word) :
    scan_word (w.chars ++ s) = some (s.dropWhile fun c => !isspace c) := by
  rw [scan_word, scan_spaces_word]
  have rest : (w.chars ++ s).dropWhile (fun c => !isspace c) = s.dropWhile fun c => !isspace c :=
    List.dropWhile_append_of_pos fun c mem => by simp [w.visible c mem]
  obtain ⟨c, chars, e⟩ := List.exists_cons_of_ne_nil w.ne
  rw [← rest, e]
  rfl

end Scans

end CS519.CText
