import CompilingToAssembly.Library.Bytes
import Mathlib.Data.List.Infix
import Mathlib.Data.List.TakeWhile

/-! Reading streams and printing strings with libc.

A buffer is memory from some address on, and the string in it ends before the first
NUL (`cstr`). `fgets` and `getline` store the next bytes of a stream, with a NUL behind
them, over what was in the buffer; how many is all they differ in, so both are a `Cut`.
`whileReads` is the loop that calls one of them until the stream is at its end. What
such a loop prints is the strings in the pieces of the stream (`whileReads_eq`), and a
piece is printed whole iff it has no NUL in it (`cstr_eq_iff`).

`report` is what a program prints that goes through files up to the first that cannot
be opened. -/
namespace CompilingToAssembly.Library.CStream

/-! ### Texts side by side -/

theorem flatMap_length_le {α β : Type} {f g : α → List β} {xs : List α}
    (h : ∀ x ∈ xs, (f x).length ≤ (g x).length) : (xs.flatMap f).length ≤ (xs.flatMap g).length := by
  induction xs with
  | nil => exact Nat.le_refl _
  | cons x xs ih =>
    obtain ⟨hx, hxs⟩ := List.forall_mem_cons.mp h
    simp only [List.flatMap_cons, List.length_append]
    exact Nat.add_le_add hx (ih hxs)

/-- Texts none of which is longer than its counterpart are the same together only if each
is. -/
theorem flatMap_eq_iff {α β : Type} {f g : α → List β} {xs : List α}
    (h : ∀ x ∈ xs, (f x).length ≤ (g x).length) : xs.flatMap f = xs.flatMap g ↔ ∀ x ∈ xs, f x = g x := by
  induction xs with
  | nil => simp
  | cons x xs ih =>
    obtain ⟨hx, hxs⟩ := List.forall_mem_cons.mp h
    rw [List.forall_mem_cons, ← ih hxs, List.flatMap_cons, List.flatMap_cons]
    constructor
    · intro heq
      have hlen := congrArg List.length heq
      simp only [List.length_append] at hlen
      have hle := flatMap_length_le hxs
      exact List.append_inj heq (by omega)
    · rintro ⟨hhead, htail⟩
      rw [hhead, htail]

/-! ### Strings -/

/-- The string at the start of a buffer. -/
def cstr (buffer : List UInt8) : List UInt8 := buffer.takeWhile (· != 0)

/-- A string as programs are given in `argv`. -/
structure CString where
  bytes : List UInt8
  no_nul : 0 ∉ bytes

/-- A text and its NUL, written over a buffer. -/
def stored (text buffer : List UInt8) : List UInt8 := text ++ 0 :: buffer.drop (text.length + 1)

theorem cstr_prefix_of (text : List UInt8) : cstr text <+: text := List.takeWhile_prefix _

theorem cstr_length_le (text : List UInt8) : (cstr text).length ≤ text.length := (cstr_prefix_of text).length_le

theorem cstr_eq_iff {text : List UInt8} : cstr text = text ↔ 0 ∉ text := by
  rw [cstr, List.takeWhile_eq_self_iff]
  constructor
  · intro h hmem
    exact absurd (h 0 hmem) (by decide)
  · intro h b hb
    exact bne_iff_ne.mpr fun h0 => h (h0 ▸ hb)

@[simp] theorem cstr_cstr (buffer : List UInt8) : cstr (cstr buffer) = cstr buffer :=
  cstr_eq_iff.mpr fun h => absurd (List.mem_takeWhile_imp h) (by decide)

theorem cstr_append_nul (text rest : List UInt8) : cstr (text ++ 0 :: rest) = cstr text := by
  induction text with
  | nil => rfl
  | cons c text ih =>
    rw [List.cons_append, cstr, cstr, List.takeWhile_cons, List.takeWhile_cons]
    split
    · exact congrArg (List.cons c) ih
    · rfl

/-- What was in the buffer does not matter. -/
theorem cstr_stored (text buffer : List UInt8) : cstr (stored text buffer) = cstr text := cstr_append_nul ..

/-- `strstr`: the haystack from the first occurrence of the needle on. -/
def strstr (haystack needle : List UInt8) : Option (List UInt8) :=
  (cstr haystack).tails.find? fun rest => (cstr needle).isPrefixOf rest

theorem strstr_isSome (haystack needle : List UInt8) :
    (strstr haystack needle).isSome = true ↔ cstr needle <:+: cstr haystack := by
  rw [strstr, List.find?_isSome, List.infix_iff_prefix_suffix]
  constructor
  · rintro ⟨rest, hrest, hneedle⟩
    exact ⟨rest, List.isPrefixOf_iff_prefix.mp hneedle, (List.mem_tails ..).mp hrest⟩
  · rintro ⟨rest, hneedle, hrest⟩
    exact ⟨rest, (List.mem_tails ..).mpr hrest, List.isPrefixOf_iff_prefix.mpr hneedle⟩

/-! ### Streams -/

/-- The bytes up to and with the first newline, or all. -/
def firstLine : List UInt8 → List UInt8
  | [] => []
  | c :: cs => if c == byte '\n' then [c] else c :: firstLine cs

theorem firstLine_initial (s : List UInt8) : firstLine s <+: s := by
  induction s with
  | nil => exact List.prefix_rfl
  | cons c cs ih =>
    rw [firstLine]
    split
    · exact List.prefix_append [c] cs
    · exact List.cons_prefix_cons.mpr ⟨rfl, ih⟩

theorem firstLine_ne_nil {s : List UInt8} (h : s ≠ []) : firstLine s ≠ [] := by
  cases s with
  | nil => exact absurd rfl h
  | cons c cs =>
    rw [firstLine]
    split <;> exact List.cons_ne_nil _ _

/-- How a function that reads takes the next bytes off a stream. -/
structure Cut where
  text : List UInt8 → List UInt8
  initial : ∀ s, text s <+: s
  pos : ∀ s, s ≠ [] → text s ≠ []

/-- `fgets(buffer, size, stream)` -/
def fgets (size : Nat) (h : 1 < size) : Cut where
  text s := firstLine (s.take (size - 1))
  initial s := (firstLine_initial _).trans ( List.take_prefix ..)
  pos s hs := firstLine_ne_nil (by
    rw [Ne, List.take_eq_nil_iff]
    rintro (h0 | h0)
    · omega
    · exact hs h0)

/-- `getline(&buffer, &length, stream)` -/
def getline : Cut where
  text := firstLine
  initial := firstLine_initial
  pos _ := firstLine_ne_nil

namespace Cut
variable (cut : Cut)

/-- The buffer and the stream after a call, or that the stream was at its end. -/
def read (buffer stream : List UInt8) : Option (List UInt8 × List UInt8) :=
  if stream.isEmpty then none
  else some (stored (cut.text stream) buffer, stream.drop (cut.text stream).length)

theorem rest_length {s : List UInt8} (h : s ≠ []) : (s.drop (cut.text s).length).length < s.length := by
  have := List.length_pos_iff.mpr (cut.pos s h)
  have := List.length_pos_iff.mpr h
  rw [List.length_drop]
  omega

theorem read_some {buffer buffer' s rest : List UInt8} (h : cut.read buffer s = some (buffer', rest)) :
    s ≠ [] ∧ buffer' = stored (cut.text s) buffer ∧ rest = s.drop (cut.text s).length := by
  unfold read at h
  split at h
  · cases h
  · next hs =>
    cases h
    exact ⟨fun hnil => hs (List.isEmpty_iff.mpr hnil), rfl, rfl⟩

theorem read_length {buffer buffer' s rest : List UInt8} (h : cut.read buffer s = some (buffer', rest)) :
    rest.length < s.length := by
  obtain ⟨hs, _, rfl⟩ := cut.read_some h
  exact cut.rest_length hs

/-- What the calls take off the stream, one after the other. -/
def pieces (s : List UInt8) : List (List UInt8) :=
  if _h : s = [] then [] else cut.text s :: pieces (s.drop (cut.text s).length)
termination_by s.length
decreasing_by exact cut.rest_length _h

/-- `while (read(buffer)) print(buffer)` -/
def whileReads (print : List UInt8 → List UInt8) (buffer stream : List UInt8) : List UInt8 :=
  match _h : cut.read buffer stream with
  | none => []
  | some (buffer, rest) => print buffer ++ whileReads print buffer rest
termination_by stream.length
decreasing_by exact cut.read_length _h

variable {cut}

@[simp] theorem pieces_nil : cut.pieces [] = [] := by
  rw [pieces]
  rfl

theorem pieces_of_ne_nil {s : List UInt8} (h : s ≠ []) :
    cut.pieces s = cut.text s :: cut.pieces (s.drop (cut.text s).length) := by
  rw [pieces, dif_neg h]

/-- The induction along the calls of a loop. -/
theorem induction_on {P : List UInt8 → Prop} (s : List UInt8) (hnil : P [])
    (hread : ∀ s, s ≠ [] → P (s.drop (cut.text s).length) → P s) : P s := by
  induction hn : s.length using Nat.strongRecOn generalizing s with
  | ind n ih =>
    by_cases hs : s = []
    · exact hs ▸ hnil
    · exact hread s hs (ih _ (hn ▸ cut.rest_length hs) _ rfl)

/-- **The pieces are the stream**: nothing is lost, repeated or moved. -/
theorem flatten_pieces (s : List UInt8) : (cut.pieces s).flatten = s := by
  induction s using cut.induction_on with
  | hnil => simp
  | hread s hs ih =>
    rw [pieces_of_ne_nil hs, List.flatten_cons, ih]
    conv_rhs => rw [← List.take_append_drop (cut.text s).length s]
    rw [← List.prefix_iff_eq_take.mp (cut.initial s)]

/-- **What a loop prints** of the strings in its buffer, it prints of the pieces. -/
theorem whileReads_eq {print : List UInt8 → List UInt8} (hprint : ∀ b, print b = print (cstr b))
    (buffer stream : List UInt8) :
    cut.whileReads print buffer stream = (cut.pieces stream).flatMap fun piece => print (cstr piece) := by
  induction stream using cut.induction_on generalizing buffer with
  | hnil =>
    rw [whileReads, pieces_nil]
    rfl
  | hread s hs ih =>
    have hread : cut.read buffer s = some (stored (cut.text s) buffer, s.drop (cut.text s).length) :=
      if_neg fun h => hs (List.isEmpty_iff.mp h)
    rw [whileReads, pieces_of_ne_nil hs, List.flatMap_cons]
    split
    · next hnone => rw [hread] at hnone; cases hnone
    · next hsome =>
      rw [hread] at hsome
      cases hsome
      -- the buffer is not the same from turn to turn, but the string in it is the piece's
      rw [ih, hprint, cstr_stored]

/-- The strings in the pieces, as `printf("%s", buffer)` prints them. -/
def strings (cut : Cut) (s : List UInt8) : List UInt8 := (cut.pieces s).flatMap cstr

theorem strings_length_le (s : List UInt8) : (cut.strings s).length ≤ s.length := by
  have hle : (cut.strings s).length ≤ ((cut.pieces s).flatMap id).length :=
    flatMap_length_le fun piece _ => cstr_length_le piece
  rwa [List.flatMap_id, flatten_pieces] at hle

/-- A stream is printed whole iff it has no NUL, wherever it is cut. -/
theorem strings_eq_iff {s : List UInt8} : cut.strings s = s ↔ 0 ∉ s := by
  have hiff : cut.strings s = (cut.pieces s).flatMap id ↔ ∀ piece ∈ cut.pieces s, cstr piece = piece :=
    flatMap_eq_iff fun piece _ => cstr_length_le piece
  rw [List.flatMap_id, flatten_pieces] at hiff
  rw [hiff]
  conv_rhs => rw [← @flatten_pieces cut s, List.mem_flatten]
  simp only [cstr_eq_iff, not_exists, not_and]

end Cut

/-- The maximal segments that end in a newline, and what is left without one. -/
def lines : List UInt8 → List (List UInt8)
  | [] => []
  | c :: cs =>
    if c == byte '\n' then [c] :: lines cs
    else
      match lines cs with
      | [] => [[c]]
      | line :: rest => (c :: line) :: rest

theorem lines_of_ne_nil {s : List UInt8} (h : s ≠ []) :
    lines s = firstLine s :: lines (s.drop (firstLine s).length) := by
  induction s with
  | nil => exact absurd rfl h
  | cons c cs ih =>
    rw [lines, firstLine]
    split
    · rfl
    · by_cases hcs : cs = []
      · subst hcs
        rfl
      · rw [ih hcs]
        rfl

/-- `getline` reads lines. -/
theorem pieces_getline (s : List UInt8) : getline.pieces s = lines s := by
  induction s using getline.induction_on with
  | hnil =>
    rw [Cut.pieces_nil]
    rfl
  | hread s hs ih => rw [Cut.pieces_of_ne_nil hs, lines_of_ne_nil hs, ih]; rfl

/-! ### Outcomes -/

structure Outcome where
  output : List UInt8
  status : Nat
deriving DecidableEq, Repr

/-- The contents of the files before the first that cannot be opened. -/
def opened : List (Option (List UInt8)) → List (List UInt8)
  | some content :: files => content :: opened files
  | _ => []

/-- What is printed of each file up to the first that cannot be opened, and there the
message. -/
def report (message : List UInt8) (print : List UInt8 → List UInt8) (files : List (Option (List UInt8))) :
    Outcome :=
  if files.all Option.isSome then ⟨(opened files).flatMap print, 0⟩
  else ⟨(opened files).flatMap print ++ message, 1⟩

theorem report_cons (message : List UInt8) (print : List UInt8 → List UInt8) (content : List UInt8)
    (files : List (Option (List UInt8))) : report message print (some content :: files) =
      ⟨print content ++ (report message print files).output, (report message print files).status⟩ := by
  unfold report
  simp only [List.all_cons, Option.isSome_some, Bool.true_and, opened, List.flatMap_cons, List.append_assoc]
  split <;> rfl

theorem report_eq_iff {message : List UInt8} {f g : List UInt8 → List UInt8} {files : List (Option (List UInt8))}
    (h : ∀ content, (f content).length ≤ (g content).length) :
    report message f files = report message g files ↔ ∀ content ∈ opened files, f content = g content := by
  rw [← flatMap_eq_iff fun content _ => h content]
  unfold report
  split <;> simp

end CompilingToAssembly.Library.CStream
