import CompilingToAssembly.Assembler.Sums

/-! From source bytes to the machine's result, for sums without brackets.

A program here is a list of statements `var name = n₁ + ... + nₖ;`, written down with
any spacing. Its text is read as its tokens (`Spaced.lexemes_eq`), which the grammar
takes to left-leaning trees (`SumStatement.phrase`); for those the code is right, and
each statement's code starts over, so that what `main` returns is the last
statement's sum (`sums_compile_and_run`). -/
namespace CompilingToAssembly
open Library

structure SumStatement where
  name : List UInt8
  isName : inClass .Identifier name = true
  first : Numeral
  rest : List Numeral

namespace SumStatement

def numerals (st : SumStatement) : List Numeral := st.first :: st.rest

def sum (st : SumStatement) : Nat := (st.numerals.map Numeral.value).sum

/-- The tokens of the operands behind the first. -/
def addTokens (ns : List Numeral) : List Lexeme :=
  ns.flatMap fun n => [punct .Operator "+", ⟨.Number, n.text⟩]

def tokens (st : SumStatement) : List Lexeme :=
  punct .Identifier "var" :: ⟨.Identifier, st.name⟩ :: punct .Operator "=" ::
    ((⟨.Number, st.first.text⟩ :: addTokens st.rest) ++ [punct .Semicolon ";"])

/-- A sum so far, and further operands. -/
def addAll (t : SumTree) (ns : List Numeral) : SumTree := ns.foldl (fun t n => .add t (.leaf n)) t

def tree (st : SumStatement) : SumTree := addAll (.leaf st.first) st.rest

def statement (st : SumStatement) : Statement (List UInt8) := ⟨st.name, st.tree.toTree⟩

/-! ### Parsing -/

theorem phrase_addAll {u : List Lexeme} {t : SumTree} (h : Phrase .expr u t.toTree) (ns : List Numeral) :
    Phrase .expr (u ++ addTokens ns) (addAll t ns).toTree := by
  induction ns generalizing u t with
  | nil =>
    show Phrase .expr (u ++ []) t.toTree
    rw [List.append_nil]
    exact h
  | cons n ns ih =>
    have hadd : Phrase .expr (u ++ [punct .Operator "+", ⟨.Number, n.text⟩])
        (SumTree.add t (.leaf n)).toTree :=
      .sum (.inl rfl) h (.factor .number)
    have := ih hadd
    rw [List.append_assoc] at this
    exact this

theorem phrase (st : SumStatement) :
    Phrase .expr (⟨.Number, st.first.text⟩ :: addTokens st.rest) st.tree.toTree :=
  phrase_addAll (u := [⟨.Number, st.first.text⟩]) (t := .leaf st.first) (.term (.factor .number)) _

theorem prog (stmts : List SumStatement) : Prog (stmts.flatMap tokens) (stmts.map statement) := by
  induction stmts with
  | nil => exact .nil
  | cons st stmts ih => exact .cons (.var st.phrase) ih

/-! ### Tokens -/

theorem lexical_addTokens (ns : List Numeral) : Lexical (addTokens ns) := by
  intro l hl
  obtain ⟨n, _, hl⟩ := List.mem_flatMap.mp hl
  simp only [List.mem_cons, List.not_mem_nil, or_false] at hl
  rcases hl with rfl | rfl
  · decide
  · exact n.isNumber

theorem lexical_tokens (stmts : List SumStatement) : Lexical (stmts.flatMap tokens) := by
  intro l hl
  obtain ⟨st, _, hl⟩ := List.mem_flatMap.mp hl
  have hsum : Lexical (⟨.Number, st.first.text⟩ :: addTokens st.rest) :=
    List.forall_mem_cons.mpr ⟨st.first.isNumber, lexical_addTokens st.rest⟩
  exact lexical_declaration st.isName hsum l hl

/-! ### Running -/

theorem addAll_leftLeaning {t : SumTree} (h : t.leftLeaning = true) (ns : List Numeral) :
    (addAll t ns).leftLeaning = true := by
  induction ns generalizing t with
  | nil => exact h
  | cons n ns ih => exact ih h

theorem leaves_addAll (t : SumTree) (ns : List Numeral) :
    (addAll t ns).leaves = t.leaves ++ ns.map Numeral.value := by
  induction ns generalizing t with
  | nil => exact (List.append_nil _).symm
  | cons n ns ih =>
    rw [addAll, List.foldl_cons, ← addAll, ih]
    simp [SumTree.leaves]

theorem result_eq_sum (st : SumStatement) (x₁ : Arm64.Word) :
    (st.tree.result x₁).1 = BitVec.ofNat 64 st.sum := by
  have hlean : st.tree.leftLeaning = true := addAll_leftLeaning rfl st.rest
  rw [SumTree.result_weighted, SumTree.weighted_leftLeaning hlean, tree, leaves_addAll, Nat.one_mul]
  rfl

/-- The code of the statements. -/
def code (stmts : List SumStatement) : List Arm64.Instr :=
  (linesOf (stmts.map statement)).map Line.instr

theorem code_eq (stmts : List SumStatement) :
    code stmts = stmts.flatMap fun st => st.tree.toTree.code := by
  rw [code, code_linesOf, List.map_map, List.flatMap_def]
  rfl

/-- After the last statement `x0` holds its sum. -/
theorem run_code (stmts : List SumStatement) (hne : stmts ≠ []) (s : Arm64.State) :
    (Arm64.run (code stmts) s).x 0 = BitVec.ofNat 64 (stmts.getLast hne).sum := by
  conv_lhs => rw [← List.dropLast_append_getLast hne]
  rw [code_eq, List.flatMap_append, Arm64.run_append]
  simp only [List.flatMap_cons, List.flatMap_nil, List.append_nil]
  rw [(SumTree.run_code _ _).1, result_eq_sum]

/-- Every immediate is one of the numbers. -/
theorem movImm_mem_code {stmts : List SumStatement} {d : Arm64.Reg} {imm : Int}
    (h : .movImm d imm ∈ code stmts) : ∃ st ∈ stmts, ∃ n ∈ st.numerals, imm = n.value := by
  rw [code_eq] at h
  obtain ⟨st, hst, hmem⟩ := List.mem_flatMap.mp h
  obtain ⟨v, hv, rfl⟩ := st.tree.movImm_mem hmem
  rw [tree, leaves_addAll] at hv
  obtain ⟨n, hn, rfl⟩ : ∃ n ∈ st.numerals, n.value = v := List.mem_map.mp hv
  exact ⟨st, hst, n, hn, rfl⟩

/-- Two words of each statement are its `var` and its name, and the others its numbers. -/
theorem operands_eq (stmts : List SumStatement) :
    (stmts.flatMap tokens).countP isWord =
      2 * (stmts.flatMap tokens).countP Descent.isSemicolon + (stmts.flatMap numerals).length := by
  have hadds (ns : List Numeral) : (addTokens ns).countP isWord = ns.length ∧
      (addTokens ns).countP Descent.isSemicolon = 0 := by
    induction ns with
    | nil => exact ⟨rfl, rfl⟩
    | cons n ns ih =>
      have hcons : addTokens (n :: ns) = punct .Operator "+" :: ⟨.Number, n.text⟩ :: addTokens ns := rfl
      rw [hcons]
      simp [isWord, Descent.isSemicolon, punct, ih]
  induction stmts with
  | nil => rfl
  | cons st stmts ih =>
    obtain ⟨hwords, hsemi⟩ := hadds st.rest
    have hword : st.tokens.countP isWord = st.rest.length + 3 := by
      simp [tokens, isWord, punct, hwords]
    have hend : st.tokens.countP Descent.isSemicolon = 1 := by
      simp [tokens, Descent.isSemicolon, punct, hsemi]
    rw [List.flatMap_cons, List.flatMap_cons, List.countP_append, List.countP_append, List.length_append, ih,
      hword, hend, numerals, List.length_cons]
    omega

end SumStatement

/-- **Sums compile and run.** Whatever the spacing, the text of a non-empty list of
sums is accepted and compiled; the file's `main`, whose immediates all fit in 16
bits, returns to its caller from every state with the last statement's sum in `x0`.
Pointers are granted; up to 49 numbers they are current, and nothing is granted that
the code may not rely on. -/
theorem sums_compile_and_run {stmts : List SumStatement} (hne : stmts ≠ [])
    (hsmall : ∀ st ∈ stmts, ∀ n ∈ st.numerals, n.value ≤ 65535) {text : List UInt8}
    (htext : Spaced (stmts.flatMap SumStatement.tokens) text) :
    ∃ root self file code, Chapter08.parse (Parser.init text) = .ok (root, self) ∧
      assembler .granted (Parser.init text) = .ok (.file file) ∧
      ((stmts.flatMap SumStatement.numerals).length ≤ 49 →
        assembler .checked (Parser.init text) = .ok (.file file)) ∧
      Arm64.codeAt (ascii "main") file = some code ∧
      (∀ d imm, .movImm d imm ∈ code → 0 ≤ imm ∧ imm ≤ 65535) ∧
      ∀ s, ∃ s', Arm64.exec code s = some (s', s.x 30) ∧
        s'.x 0 = BitVec.ofNat 64 (stmts.getLast hne).sum := by
  have hprog := SumStatement.prog stmts
  have hlexemes := htext.lexemes_eq (SumStatement.lexical_tokens stmts) hprog.alternates.apart
  rw [← hlexemes] at hprog
  have hprogram := (prog_iff (lexical_lexemes text)).mp hprog
  have hstuck : stuckIn (stmts.map SumStatement.statement) = false := by
    rw [stuckIn, List.any_map]
    exact List.any_eq_false.mpr fun st _ => by simp [SumStatement.statement, SumTree.not_stuck]
  have hfile := assembler_program hprogram
  rw [hstuck] at hfile
  obtain ⟨items, after, hparse, _⟩ := Chapter08.parse_of_program hprogram
  refine ⟨_, _, _, _, hparse, hfile, ?_, codeAt_main (hprog.lines_valid (lexical_lexemes text)), ?_, ?_⟩
  · intro hfew
    have hwords := SumStatement.operands_eq stmts
    rw [← hlexemes] at hwords
    rw [assembler_checked_of_current hparse (followed_current hparse (by omega))]
    exact hfile
  · intro d imm hmem
    have hcode : .movImm d imm ∈ SumStatement.code stmts := by
      simpa [mainCode, SumStatement.code] using hmem
    obtain ⟨st, hst, n, hn, rfl⟩ := SumStatement.movImm_mem_code hcode
    have := hsmall st hst n hn
    omega
  · intro s
    obtain ⟨s', hexec, _, _, _, hregs, _⟩ := Arm64.exec_frame (lines_isLocal _) s
    refine ⟨s', hexec, ?_⟩
    rw [hregs 0 (by decide) (by decide)]
    exact SumStatement.run_code stmts hne _

/-- `var a = 3 + 2; var b = 1 + 2 + 3;`, with a blank before each token. -/
theorem sums_compile_and_run_six : ∃ file code,
    assembler .granted (Parser.init (ascii " var a = 3 + 2 ; var b = 1 + 2 + 3 ;")) = .ok (.file file) ∧
      assembler .checked (Parser.init (ascii " var a = 3 + 2 ; var b = 1 + 2 + 3 ;")) = .ok (.file file) ∧
      Arm64.codeAt (ascii "main") file = some code ∧
      ∀ s, ∃ s', Arm64.exec code s = some (s', s.x 30) ∧ s'.x 0 = 6 := by
  have hspell : spell (List.flatMap SumStatement.tokens
      [⟨ascii "a", by decide, three, [two]⟩, ⟨ascii "b", by decide, one, [two, three]⟩]) =
      ascii " var a = 3 + 2 ; var b = 1 + 2 + 3 ;" := by decide +kernel
  have htext := spaced_spell (List.flatMap SumStatement.tokens
    [⟨ascii "a", by decide, three, [two]⟩, ⟨ascii "b", by decide, one, [two, three]⟩])
  rw [hspell] at htext
  obtain ⟨_, _, file, code, _, hfile, hchecked, hcode, _, hrun⟩ :=
    sums_compile_and_run (List.cons_ne_nil _ _) (by decide +kernel) htext
  exact ⟨file, code, hfile, hchecked (by decide), hcode, hrun⟩

end CompilingToAssembly
