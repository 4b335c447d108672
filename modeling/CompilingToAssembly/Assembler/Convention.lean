import CompilingToAssembly.Assembler.Lines

/-! The generated `main` and its caller.

The body of the file is made of three kinds of line, whatever the program
(`assembler_ok`), and none of them writes a register other than `x0` and `x1`, the
stack pointer or memory. Prologue and epilogue save and restore the frame record
around it, so `main` comes back to its caller with everything else as it was
(`main_keeps_convention`). -/
namespace CompilingToAssembly
open Library

theorem instr_writes (line : Line) {r : Arm64.Reg} (h0 : r ≠ 0) (h1 : r ≠ 1) : line.instr.writes r = false := by
  cases line with
  | park => exact beq_eq_false_iff_ne.mpr (Ne.symm h1)
  | _ => exact beq_eq_false_iff_ne.mpr (Ne.symm h0)

/-- The lines of a body leave every register but `x0` and `x1` alone. -/
theorem run_lines (lines : List Line) (s : Arm64.State) {r : Arm64.Reg} (h0 : r ≠ 0) (h1 : r ≠ 1) :
    (Arm64.run (lines.map Line.instr) s).x r = s.x r := by
  apply Arm64.run_unwritten
  intro i hi
  obtain ⟨line, _, rfl⟩ := List.mem_map.mp hi
  exact ⟨instr_isLocal line, instr_writes line h0 h1⟩

/-- `main` returns to its caller with its own two registers changed, and memory only in the
16 bytes below the stack pointer. -/
structure Returned (s s' : Arm64.State) : Prop where
  sp : s'.sp = s.sp
  registers : ∀ r, r ≠ 0 → r ≠ 1 → s'.x r = s.x r
  memory : ∀ b, 16 ≤ (b - (s.sp - 16)).toNat → s'.mem b = s.mem b

theorem exec_mainCode (lines : List Line) (s : Arm64.State) :
    ∃ s', Arm64.exec (mainCode (lines.map Line.instr)) s = some (s', s.x 30) ∧ Returned s s' := by
  obtain ⟨s', hexec, hsp, hfp, hlr, hregs, hmem⟩ := Arm64.exec_frame (lines_isLocal lines) s
  refine ⟨s', hexec, hsp, fun r h0 h1 => ?_, hmem⟩
  -- the frame record restores two registers, the rest are those of the body
  by_cases h29 : r = 29
  · rw [h29, hfp]
  · by_cases h30 : r = 30
    · rw [h30, hlr]
    · rw [hregs r h29 h30, run_lines lines _ h0 h1]
      rfl

/-- **The generated `main` keeps the calling convention.** On every input on which the
compiler completes, the file is the prologue, lines of the three forms, with a number in
each `mov x0`, and the epilogue; and from every state it returns to the caller's link
address with the rest of the state as it was. -/
theorem main_keeps_convention {access : Access} {input : List UInt8} {out : Output}
    (h : assembler access (Parser.init input) = .ok out) :
    ∃ lines code, (∀ line ∈ lines, line.valid = true) ∧
      out = .file (prologue ++ textOf lines ++ epilogue) ∧
      Arm64.codeAt (ascii "main") (prologue ++ textOf lines ++ epilogue) = some code ∧
      ∀ s, ∃ s', Arm64.exec code s = some (s', s.x 30) ∧ Returned s s' := by
  obtain ⟨ss, hss, _, rfl⟩ := assembler_ok h
  have hvalid := hss.lines_valid (lexical_lexemes input)
  exact ⟨linesOf ss, _, hvalid, rfl, codeAt_main hvalid, exec_mainCode (linesOf ss)⟩

theorem main_keeps_convention_sum : ∃ out lines code,
    assembler .checked (Parser.init (ascii "var x = 1 + 2 * 3;")) = .ok out ∧
      out = .file (prologue ++ textOf lines ++ epilogue) ∧
      Arm64.codeAt (ascii "main") (prologue ++ textOf lines ++ epilogue) = some code ∧
      ∀ s, ∃ s', Arm64.exec code s = some (s', s.x 30) ∧ Returned s s' := by
  have hrun : (assembler .checked (Parser.init (ascii "var x = 1 + 2 * 3;"))).isOk = true := by decide +kernel
  cases h : assembler .checked (Parser.init (ascii "var x = 1 + 2 * 3;")) with
  | error stop => rw [h] at hrun; cases hrun
  | ok out =>
    obtain ⟨lines, code, _, hout, hcode, hexec⟩ := main_keeps_convention h
    exact ⟨out, lines, code, rfl, hout, hcode, hexec⟩

end CompilingToAssembly
