import CompilingToAssembly.Library.CStream

/-! `wgrep.c`: print the lines of files that contain a term.

A line is read with all its bytes, but `strstr` searches and `printf` prints the C
string in it. A line with a NUL in it is therefore searched only in front of the first
one, and printed only so far (`wgrep_prints_iff`).

`fopen` is the file system, as the content of each file that can be opened. -/
namespace CompilingToAssembly.Wgrep
open Library Library.CStream

def usage : List UInt8 := ascii "wgrep: searchterm [file ...]\n"

def cannotOpen : List UInt8 := ascii "wgrep: cannot open file\n"

/-- The body of the loop of `grep`. -/
def printMatch (searchText line : List UInt8) : List UInt8 :=
  if (strstr line searchText).isSome then cstr line else []

/-- `grep`: what it prints. The buffer is `NULL` before `getline` allocates it. -/
def grep (fp searchText : List UInt8) : List UInt8 := getline.whileReads (printMatch searchText) [] fp

variable (fopen : CString → Option (List UInt8)) (stdin : List UInt8)

/-- The loop over the arguments behind the term. Falling off the end of `main` is
status 0. -/
def grepFiles (searchText : CString) : List CString → Outcome
  | [] => ⟨[], 0⟩
  | fileName :: argv =>
    match fopen fileName with
    | none => ⟨cannotOpen, 1⟩
    | some fp => ⟨grep fp searchText.bytes ++ (grepFiles searchText argv).output, (grepFiles searchText argv).status⟩

/-- `main`, on what `argv` holds behind the program's name. -/
def main : List CString → Outcome
  | [] => ⟨usage, 1⟩
  | searchText :: argv =>
    if searchText.bytes.length = 0 then ⟨[], 0⟩
    else if argv.length + 2 = 2 then ⟨grep stdin searchText.bytes, 0⟩
    else grepFiles fopen searchText argv

/-! ### What it is for -/

/-- The lines that contain the term. -/
def matching (term content : List UInt8) : List (List UInt8) := (lines content).filter (term <:+: ·)

/-- The matching lines of the files up to the first that cannot be opened. -/
def expected (term : List UInt8) (files : List (Option (List UInt8))) : Outcome :=
  report cannotOpen (fun content => (matching term content).flatten) files

/-- The files that are searched: those named or, if none is, standard input. -/
def searched (names : List CString) : List (Option (List UInt8)) :=
  if names.isEmpty then [some stdin] else names.map fopen

/-! ### What is printed -/

theorem printMatch_cstr (term line : List UInt8) : printMatch term line = printMatch term (cstr line) := by
  unfold printMatch strstr
  rw [cstr_cstr]

theorem grep_eq (content term : List UInt8) : grep content term = (lines content).flatMap (printMatch term) := by
  unfold grep
  rw [Cut.whileReads_eq (printMatch_cstr term), pieces_getline]
  simp only [← printMatch_cstr]

theorem grepFiles_eq (term : CString) (names : List CString) :
    grepFiles fopen term names = report cannotOpen (grep · term.bytes) (names.map fopen) := by
  induction names with
  | nil => rfl
  | cons name names ih =>
    rw [grepFiles, List.map_cons, ih]
    cases fopen name with
    | none => rfl
    | some content => rw [report_cons]

theorem main_eq {term : CString} (h : term.bytes ≠ []) (names : List CString) :
    main fopen stdin (term :: names) = report cannotOpen (grep · term.bytes) (searched fopen stdin names) := by
  rw [main, if_neg fun h0 => h (List.eq_nil_of_length_eq_zero h0)]
  cases names with
  | nil => simp [searched, report, opened]
  | cons name names => exact grepFiles_eq fopen term (name :: names)

/-! ### What should be printed -/

/-- Of a line. -/
def whole (term line : List UInt8) : List UInt8 := if term <:+: line then line else []

theorem flatten_matching (term content : List UInt8) :
    (matching term content).flatten = (lines content).flatMap (whole term) := by
  unfold matching
  induction lines content with
  | nil => rfl
  | cons line rest ih =>
    rw [List.filter_cons, List.flatMap_cons, ← ih, whole]
    by_cases h : term <:+: line <;> simp [h]

/-- The program does to the string in the line what it should do to the line. -/
theorem printMatch_eq (term : CString) (line : List UInt8) :
    printMatch term.bytes line = whole term.bytes (cstr line) := by
  unfold printMatch whole
  simp only [strstr_isSome, cstr_eq_iff.mpr term.no_nul]

theorem whole_cstr_length_le (term line : List UInt8) :
    (whole term (cstr line)).length ≤ (whole term line).length := by
  unfold whole
  split
  · next h =>
    rw [if_pos (h.trans (cstr_prefix_of line).isInfix)]
    exact cstr_length_le line
  · exact Nat.zero_le _

theorem whole_cstr_eq_iff {term : List UInt8} (h : term ≠ []) (line : List UInt8) :
    whole term (cstr line) = whole term line ↔ (term <:+: line → 0 ∉ line) := by
  unfold whole
  constructor
  · intro heq hin hnul
    rw [if_pos hin] at heq
    split at heq
    · exact cstr_eq_iff.mp heq hnul
    -- nothing is printed, but the line holds the term and so is not empty
    · exact h (List.infix_nil.mp (heq ▸ hin))
  · intro himp
    by_cases hin : term <:+: line
    · rw [cstr_eq_iff.mpr (himp hin)]
    · rw [if_neg hin, if_neg fun hc => hin (hc.trans (cstr_prefix_of line).isInfix)]

theorem grep_eq_whole (term : CString) (content : List UInt8) :
    grep content term.bytes = (lines content).flatMap fun line => whole term.bytes (cstr line) := by
  rw [grep_eq, funext (printMatch_eq term)]

theorem grep_length_le (term : CString) (content : List UInt8) :
    (grep content term.bytes).length ≤ (matching term.bytes content).flatten.length := by
  rw [grep_eq_whole, flatten_matching]
  exact flatMap_length_le fun line _ => whole_cstr_length_le term.bytes line

theorem grep_eq_iff {term : CString} (h : term.bytes ≠ []) (content : List UInt8) :
    grep content term.bytes = (matching term.bytes content).flatten ↔
      ∀ line ∈ lines content, term.bytes <:+: line → 0 ∉ line := by
  rw [grep_eq_whole, flatten_matching, flatMap_eq_iff fun line _ => whole_cstr_length_le term.bytes line]
  simp only [whole_cstr_eq_iff h]

/-- **`wgrep` prints the matching lines iff no line it should print has a NUL in it.** -/
theorem wgrep_prints_iff {term : CString} (h : term.bytes ≠ []) (names : List CString) :
    main fopen stdin (term :: names) = expected term.bytes (searched fopen stdin names) ↔
      ∀ content ∈ opened (searched fopen stdin names),
        ∀ line ∈ lines content, term.bytes <:+: line → 0 ∉ line := by
  rw [main_eq fopen stdin h, expected, report_eq_iff (grep_length_le term)]
  simp only [grep_eq_iff h]

theorem key_no_nul : 0 ∉ ascii "key" := by decide +kernel

/-- Of a file with no NUL in it, the last line unterminated. -/
theorem wgrep_prints_keys :
    main (fun _ => some (ascii "a key\nnone\nkeys")) [] [⟨ascii "key", key_no_nul⟩, ⟨ascii "key", key_no_nul⟩] =
      expected (ascii "key") [some (ascii "a key\nnone\nkeys")] :=
  (wgrep_prints_iff _ _ (by decide +kernel) _).mpr (by decide +kernel)

/-- A line with a NUL in front of the term is not printed. -/
theorem nul_hides_match :
    main (fun _ => some (0 :: ascii "key\n")) [] [⟨ascii "key", key_no_nul⟩, ⟨ascii "key", key_no_nul⟩] = ⟨[], 0⟩ ∧
      ⟨[], 0⟩ ≠ expected (ascii "key") [some (0 :: ascii "key\n")] := by
  decide +kernel

end CompilingToAssembly.Wgrep
