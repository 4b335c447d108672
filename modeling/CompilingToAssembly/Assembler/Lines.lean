import CompilingToAssembly.Assembler.Following
import CompilingToAssembly.Library.Arm64
import CompilingToAssembly.Parser.Grammar
import Mathlib.Algebra.Order.BigOperators.Group.List
import Mathlib.Algebra.Order.Group.Nat

/-! What the generator emits for a tree.

Three kinds of line make up the body of the file, and which of them a tree gives
is a function of the tree alone (`Tree.lines`), as is whether the generator runs
into an identifier on its way (`Tree.stuck`). `assembler_program` says so for whole
programs, and `codeAt_main` reads the file back as instructions. -/
namespace CompilingToAssembly
open Library

/-- A line of the body. -/
inductive Line where
  | load (numeral : List UInt8)
  | park
  | add
deriving DecidableEq, Repr

/-- The line without its newline. -/
def Line.body : Line → List UInt8
  | .load numeral => ascii "\tmov x0, #" ++ numeral
  | .park => ascii "\tmov x1, x0"
  | .add => ascii "\tadd x0, x0, x1"

def textOf (lines : List Line) : List UInt8 := lines.flatMap fun line => line.body ++ ascii "\n"

@[simp] theorem textOf_nil : textOf [] = [] := rfl
theorem textOf_append (a b : List Line) : textOf (a ++ b) = textOf a ++ textOf b := List.flatMap_append
theorem textOf_cons (l : Line) (ls : List Line) : textOf (l :: ls) = l.body ++ ascii "\n" ++ textOf ls :=
  List.flatMap_cons

/-- The lines of an expression. -/
def Tree.lines : Tree (List UInt8) → List Line
  | .number numeral => [.load numeral]
  | .identifier _ => []
  | .binary op left right =>
    if op == ascii "+" then left.lines ++ .park :: (right.lines ++ [.add]) else []

/-- Through additions alone one comes to an identifier. -/
def Tree.stuck : Tree (List UInt8) → Bool
  | .number _ => false
  | .identifier _ => true
  | .binary op left right => op == ascii "+" && (left.stuck || right.stuck)

/-- What the generator does to its list, given what it emits and whether it is stuck. -/
def emitted (list : List UInt8) (stuck : Bool) (lines : List Line) : Except Fault (List UInt8) :=
  if stuck then .error .unreachable else .ok (list ++ textOf lines)

theorem asmExpression_eq {nodes : ArrayList (Ast (List UInt8))} {p : Pointer} {t : Tree (List UInt8)}
    (h : Denotes nodes p t) {n : Nat} (hn : t.size ≤ n) (list : List UInt8) :
    asmExpression .granted nodes n list p = emitted list t.stuck t.lines := by
  induction h generalizing n list with
  | number _ hd =>
    obtain ⟨m, rfl⟩ : ∃ m, n = m + 1 := ⟨n - 1, by simp only [Tree.size] at hn; omega⟩
    simp [asmExpression, hd, asmNumber, emitted, Tree.stuck, Tree.lines, textOf, Line.body]
  | identifier _ hd =>
    obtain ⟨m, rfl⟩ : ∃ m, n = m + 1 := ⟨n - 1, by simp only [Tree.size] at hn; omega⟩
    simp [asmExpression, hd, emitted, Tree.stuck]
  | @binary p op l r left right _ hd _ _ ihl ihr =>
    obtain ⟨m, rfl⟩ : ∃ m, n = m + 1 := ⟨n - 1, by simp only [Tree.size] at hn; omega⟩
    simp only [Tree.size] at hn
    by_cases hop : (op == ascii "+") = true
    · simp only [asmExpression, ArrayList.follow_granted, hd, hop, if_true, asmAdd, Tree.stuck, Tree.lines, Bool.true_and]
      rw [ihl (by omega)]
      cases hl : left.stuck with
      | true => simp [emitted]
      | false =>
        simp only [emitted, Bool.false_eq_true, if_false, Bool.false_or]
        rw [ihr (by omega)]
        cases hr : right.stuck with
        | true => simp [emitted]
        | false => simp [emitted, textOf, Line.body, ascii]
    · simp [asmExpression, hd, hop, Tree.stuck, Tree.lines, emitted]

/-- Some statement of the program has the generator stuck. -/
def stuckIn (ss : List (Statement (List UInt8))) : Bool := ss.any fun s => s.value.stuck

def linesOf (ss : List (Statement (List UInt8))) : List Line := ss.flatMap fun s => s.value.lines

theorem asmItems_eq {nodes : ArrayList (Ast (List UInt8))} {items : List (Ast (List UInt8))}
    {ss : List (Statement (List UInt8))} (h : List.Forall₂ (IsVar nodes) items ss)
    (hsize : ∀ s ∈ ss, s.value.size ≤ nodes.items.length) (list : List UInt8) :
    asmItems .granted nodes list items = emitted list (stuckIn ss) (linesOf ss) := by
  induction h generalizing list with
  | nil => simp [asmItems, emitted, stuckIn, linesOf]
  | @cons node s items ss hv _ ih =>
    obtain ⟨_, hvalue⟩ := hv
    simp only [asmItems, asmStatement, asmExpression_eq hvalue (hsize s (List.mem_cons_self ..))]
    cases hs : s.value.stuck with
    | true => simp [emitted, stuckIn, hs]
    | false =>
      simp only [emitted, Bool.false_eq_true, if_false]
      rw [ih (fun s' hs' => hsize s' (List.mem_cons_of_mem _ hs'))]
      simp [emitted, stuckIn, linesOf, hs, textOf_append]

theorem size_le_pushedBy {ν : Type} {ss : List (Statement ν)} {s : Statement ν} (h : s ∈ ss) :
    s.value.size ≤ pushedBy ss := by
  have : s.size ≤ pushedBy ss := List.le_sum_of_mem (List.mem_map_of_mem h)
  exact Nat.le_trans (Nat.le_succ _) this

/-- **What the compiler makes of a program**, its pointers granted. -/
theorem assembler_program {input : List UInt8} {ss : List (Statement (List UInt8))}
    (h : Descent.Program chapter08 (lexemes input) ss) :
    assembler .granted (Parser.init input) =
      if stuckIn ss then .error (.fault .unreachable)
      else .ok (.file (prologue ++ textOf (linesOf ss) ++ epilogue)) := by
  obtain ⟨items, after, hparse, hbuilt⟩ := Chapter08.parse_of_program h
  have hgrows := (Follows.pushNode after (.Block items)).grows
  have hvars := hbuilt.vars.imp fun _ _ hv => hv.grows hgrows
  have hsize : ∀ s ∈ ss, s.value.size ≤ (after.pushNode (.Block items)).2.nodes.items.length := by
    intro s hs
    have := size_le_pushedBy hs
    rw [(Follows.pushNode after (.Block items)).length, hbuilt.length]
    omega
  unfold assembler
  rw [hparse]
  simp only [ArrayList.follow_granted, deref_pushNode, asmItems_eq hvars hsize, emitted]
  cases stuckIn ss <;> rfl

theorem assembler_error {access : Access} {input : List UInt8} {e : Error}
    (h : Chapter08.parse (Parser.init input) = .error e) :
    assembler access (Parser.init input) = .error (.parser e) := by
  unfold assembler
  rw [h]

/-- **What a run that ends well leaves** is the file of a program that has the generator
nowhere stuck. -/
theorem assembler_ok {access : Access} {input : List UInt8} {out : Output}
    (h : assembler access (Parser.init input) = .ok out) :
    ∃ ss, Prog (lexemes input) ss ∧ stuckIn ss = false ∧
      out = .file (prologue ++ textOf (linesOf ss) ++ epilogue) := by
  cases hp : Chapter08.parse (Parser.init input) with
  | error e =>
    rw [assembler_error hp] at h
    cases h
  | ok r =>
    obtain ⟨root, self⟩ := r
    obtain ⟨ss, _, _, hss, _⟩ := Chapter08.program_of_parse hp
    refine ⟨ss, (prog_iff (lexical_lexemes input)).mpr hss, ?_⟩
    replace h := assembler_granted_of_ok h
    rw [assembler_program hss] at h
    split at h
    · cases h
    · next hstuck =>
      cases h
      exact ⟨by simpa using hstuck, rfl⟩

/-! ### The file as instructions -/

open Arm64 in
def Line.instr : Line → Instr
  | .load numeral => .movImm 0 (decimal numeral)
  | .park => .mov 1 0
  | .add => .arith .add 0 0 1

theorem instr_isLocal (line : Line) : line.instr.isLocal = true := by
  cases line <;> rfl

theorem lines_isLocal (lines : List Line) : ∀ i ∈ lines.map Line.instr, i.isLocal = true := by
  intro i hi
  obtain ⟨line, _, rfl⟩ := List.mem_map.mp hi
  exact instr_isLocal line

/-- A line whose immediate is a number. -/
def Line.valid : Line → Bool
  | .load numeral => inClass .Number numeral
  | _ => true

theorem Tree.lines_valid {t : Tree (List UInt8)} (h : ∀ n ∈ t.numerals, inClass .Number n = true) :
    ∀ line ∈ t.lines, line.valid = true := by
  induction t with
  | number n =>
    intro line hline
    obtain rfl := List.mem_singleton.mp hline
    exact h n (List.mem_singleton_self n)
  | identifier name => exact fun line hline => (nomatch hline)
  | binary op l r ihl ihr =>
    obtain ⟨hl, hr⟩ := List.forall_mem_append.mp h
    rw [Tree.lines]
    split
    · intro line hline
      rcases List.mem_append.mp hline with hline | hline
      · exact ihl hl line hline
      · rcases List.mem_cons.mp hline with rfl | hline
        · rfl
        · rcases List.mem_append.mp hline with hline | hline
          · exact ihr hr line hline
          · obtain rfl := List.mem_singleton.mp hline
            rfl
    · exact fun line hline => (nomatch hline)

/-- The numbers in the lines of a program are numbers. -/
theorem Prog.lines_valid {ls : List Lexeme} {ss : List (Statement (List UInt8))} (h : Prog ls ss)
    (hls : Lexical ls) : ∀ line ∈ linesOf ss, line.valid = true := by
  intro line hline
  obtain ⟨s, hs, hline⟩ := List.mem_flatMap.mp hline
  exact Tree.lines_valid (h.numerals_valid hls s hs) line hline

theorem digits_of_number {numeral : List UInt8} (h : inClass .Number numeral = true) :
    ∃ d ds, numeral = d :: ds ∧ ∀ c ∈ numeral, isDigit c = true := by
  cases numeral with
  | nil => simp at h
  | cons d ds =>
    refine ⟨d, ds, rfl, ?_⟩
    simp only [inClass, Bool.and_eq_true] at h
    intro c hc
    rcases List.mem_cons.mp hc with rfl | hc
    · exact isDigit_of_nonzero _ h.1
    · exact List.all_eq_true.mp h.2 c hc

theorem digit_apart (c : UInt8) (h : isDigit c = true) :
    Arm64.isSpacing c = false ∧ Arm64.isNewline c = false ∧ c ≠ byte '-' :=
  forall_byte (P := fun c => isDigit c = true →
    Arm64.isSpacing c = false ∧ Arm64.isNewline c = false ∧ c ≠ byte '-') (by decide +kernel) c h

theorem immediate_number {numeral : List UInt8} (h : inClass .Number numeral = true) :
    Arm64.immediate (ascii "#" ++ numeral) = some (decimal numeral : Int) := by
  obtain ⟨d, ds, rfl, hdigits⟩ := digits_of_number h
  have hall : (d :: ds).all isDigit = true := List.all_eq_true.mpr hdigits
  have hd := (digit_apart d (hdigits d (List.mem_cons_self ..))).2.2
  have hnum : Arm64.numeral (d :: ds) = some (decimal (d :: ds)) := by simp [Arm64.numeral, hall]
  have hshape : ascii "#" ++ d :: ds = byte '#' :: d :: ds := rfl
  rw [hshape, Arm64.immediate]
  simp only [beq_self_eq_true, if_true, beq_iff_eq, hd, if_false, hnum]
  rfl

theorem decodeLine_body {line : Line} (h : line.valid = true) :
    Arm64.decodeLine line.body = some line.instr := by
  cases line with
  | park => decide +kernel
  | add => decide +kernel
  | load numeral =>
    obtain ⟨d, ds, _, hdigits⟩ := digits_of_number h
    have hwords : pieces Arm64.isSpacing (ascii "\tmov x0, #" ++ numeral) =
        [ascii "mov", ascii "x0", ascii "#" ++ numeral] := by
      show ascii "mov" :: ascii "x0" :: piecesFrom Arm64.isSpacing (ascii "#") numeral = _
      rw [piecesFrom_last (fun c hc => (digit_apart c (hdigits c hc)).1) _ (List.cons_ne_nil _ _)]
    have hreg : Arm64.register (ascii "#" ++ numeral) = none := by
      have hcons : ascii "#" ++ numeral = byte '#' :: numeral := rfl
      rw [hcons, Arm64.register]
      cases Arm64.numeral numeral <;> rfl
    simp only [Arm64.decodeLine, Line.body, hwords, Arm64.decodeWords, hreg, immediate_number h]
    rfl

theorem body_run {line : Line} (h : line.valid = true) :
    line.body ≠ [] ∧ ∀ c ∈ line.body, Arm64.isNewline c = false := by
  cases line with
  | park => decide +kernel
  | add => decide +kernel
  | load numeral =>
    refine ⟨List.cons_ne_nil _ _, ?_⟩
    obtain ⟨_, _, _, hdigits⟩ := digits_of_number h
    intro c hc
    rcases List.mem_append.mp hc with hc | hc
    · have hplain : ∀ c ∈ ascii "\tmov x0, #", Arm64.isNewline c = false := by decide +kernel
      exact hplain c hc
    · exact (digit_apart c (hdigits c hc)).2.1

theorem pieces_textOf {lines : List Line} (h : ∀ line ∈ lines, line.valid = true)
    (rest : List UInt8) :
    pieces Arm64.isNewline (textOf lines ++ rest) =
      lines.map Line.body ++ pieces Arm64.isNewline rest := by
  induction lines with
  | nil => rfl
  | cons line lines ih =>
    obtain ⟨hne, hrun⟩ := body_run (h line (List.mem_cons_self ..))
    rw [textOf_cons, List.append_assoc, List.append_assoc]
    show pieces Arm64.isNewline (line.body ++ byte '\n' :: (textOf lines ++ rest)) = _
    rw [pieces_cons hrun hne (by decide), ih (fun l hl => h l (List.mem_cons_of_mem _ hl))]
    rfl

theorem decodeLines_body {lines : List Line} (h : ∀ line ∈ lines, line.valid = true) :
    Arm64.decodeLines (lines.map Line.body) = some (lines.map Line.instr) := by
  induction lines with
  | nil => rfl
  | cons line lines ih =>
    simp only [List.map_cons, Arm64.decodeLines, decodeLine_body (h line (List.mem_cons_self ..)),
      ih (fun l hl => h l (List.mem_cons_of_mem _ hl))]

/-- The text of an expression is read as its instructions. -/
theorem decode_textOf {lines : List Line} (h : ∀ line ∈ lines, line.valid = true) :
    Arm64.decode (textOf lines) = some (lines.map Line.instr) := by
  have := pieces_textOf h []
  rw [List.append_nil] at this
  unfold Arm64.decode
  rw [this]
  show Arm64.decodeLines (lines.map Line.body ++ []) = _
  rw [List.append_nil]
  exact decodeLines_body h

/-- The code of `main` around the instructions of the statements. -/
def mainCode (code : List Arm64.Instr) : List Arm64.Instr :=
  .stpPre 29 30 (-16) :: (code ++ [.ldpPost 29 30 16, .ret])

/-- **The file is read as `main`.** -/
theorem codeAt_main {lines : List Line} (h : ∀ line ∈ lines, line.valid = true) :
    Arm64.codeAt (ascii "main") (prologue ++ textOf lines ++ epilogue) =
      some (mainCode (lines.map Line.instr)) := by
  have hpieces : pieces Arm64.isNewline (prologue ++ textOf lines ++ epilogue) =
      ascii ".section .text" :: ascii ".global main" :: ascii "main:" ::
        ascii "\tstp x29, x30, [sp, #-16]!" :: pieces Arm64.isNewline (textOf lines ++ epilogue) := by
    rw [List.append_assoc]
    rfl
  have htail : Arm64.decodeLines (pieces Arm64.isNewline epilogue) =
      some [.ldpPost 29 30 16, .ret] := by decide +kernel
  have hstp : Arm64.decodeLine (ascii "\tstp x29, x30, [sp, #-16]!") = some (.stpPre 29 30 (-16)) := by
    decide +kernel
  unfold Arm64.codeAt
  rw [hpieces]
  show Arm64.decodeLines (ascii "\tstp x29, x30, [sp, #-16]!" ::
    pieces Arm64.isNewline (textOf lines ++ epilogue)) = _
  rw [Arm64.decodeLines, hstp, pieces_textOf h,
    Arm64.decodeLines_append (decodeLines_body h) htail]
  rfl

end CompilingToAssembly
