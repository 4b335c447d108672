import CompilingToAssembly.Library.CStream

/-! `wcat.c`: print files one after the other.

A file is read in pieces of at most 19 bytes, none of which goes beyond a newline, and
each is printed as a C string. The pieces together are the file; of a piece with a NUL
in it only what stands before is printed (`wcat_reproduces_iff`).

`fopen` is the file system, as the content of each file that can be opened, and
`malloc i` what happens to be in the block allocated for the `i`-th argument. -/
namespace CompilingToAssembly.Wcat
open Library Library.CStream

def cannotOpen : List UInt8 := ascii "wcat: cannot open file\n"

theorem one_lt_size : 1 < 20 := by decide

variable (fopen : CString → Option (List UInt8)) (malloc : Nat → List UInt8)

/-- The loop over the arguments from the `i`-th on, and the `return` behind it. -/
def printFiles : Nat → List CString → Outcome
  | _, [] => ⟨[], 0⟩
  | i, filename :: argv =>
    match fopen filename with
    | none => ⟨cannotOpen, 1⟩
    | some fp =>
      ⟨(fgets 20 one_lt_size).whileReads cstr (malloc i) fp ++ (printFiles (i + 1) argv).output,
        (printFiles (i + 1) argv).status⟩

/-- `main`, on what `argv` holds behind the program's name. -/
def main (argv : List CString) : Outcome :=
  if argv.length + 1 < 2 then ⟨[], 0⟩ else printFiles fopen malloc 1 argv

/-- What `wcat` is for: the files as they are, up to the first that cannot be opened. -/
def reproduced (files : List (Option (List UInt8))) : Outcome := report cannotOpen id files

theorem printFiles_eq (i : Nat) (argv : List CString) :
    printFiles fopen malloc i argv = report cannotOpen (fgets 20 one_lt_size).strings (argv.map fopen) := by
  induction argv generalizing i with
  | nil => rfl
  | cons filename argv ih =>
    rw [printFiles, List.map_cons, ih]
    cases fopen filename with
    | none => rfl
    | some fp =>
      rw [report_cons, Cut.strings]
      simp only [Cut.whileReads_eq fun b => (cstr_cstr b).symm, cstr_cstr]

theorem main_eq (argv : List CString) :
    main fopen malloc argv = report cannotOpen (fgets 20 one_lt_size).strings (argv.map fopen) := by
  unfold main
  split
  · next h =>
    obtain rfl : argv = [] := List.eq_nil_of_length_eq_zero (by omega)
    rfl
  · exact printFiles_eq fopen malloc 1 argv

/-- **`wcat` reproduces its files iff no file that it prints has a NUL in it.** -/
theorem wcat_reproduces_iff (argv : List CString) :
    main fopen malloc argv = reproduced (argv.map fopen) ↔
      ∀ content ∈ opened (argv.map fopen), 0 ∉ content := by
  have hle (content : List UInt8) : ((fgets 20 one_lt_size).strings content).length ≤ (id content).length :=
    Cut.strings_length_le content
  rw [main_eq, reproduced, report_eq_iff hle]
  simp only [id_eq, Cut.strings_eq_iff]

theorem file_no_nul : 0 ∉ ascii "file" := by decide +kernel

/-- Of a file that holds `a`, a NUL and `b`, only the `a` is printed. -/
theorem nul_cuts_file :
    main (fun _ => some [byte 'a', 0, byte 'b']) (fun _ => []) [⟨ascii "file", file_no_nul⟩] = ⟨ascii "a", 0⟩ ∧
      ⟨ascii "a", 0⟩ ≠ reproduced [some [byte 'a', 0, byte 'b']] := by
  decide +kernel

end CompilingToAssembly.Wcat
