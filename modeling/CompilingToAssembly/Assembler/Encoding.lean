import CompilingToAssembly.Assembler.Agreement
import CompilingToAssembly.Library.Immediate

/-! Literals that the target cannot encode.

A numeral is copied from the source into `mov x0, #n` and never converted, so that its
value is bounded by nothing. Whether the file can be assembled is decided by the
numerals that the generator comes to (`immediates_movable_iff`). -/
namespace CompilingToAssembly
open Library

/-- A numeral is reached from the root through additions alone. -/
inductive ExposesNumeral : Tree (List UInt8) → List UInt8 → Prop where
  | here {numeral} : ExposesNumeral (.number numeral) numeral
  | left {l r numeral} : ExposesNumeral l numeral → ExposesNumeral (.binary (ascii "+") l r) numeral
  | right {l r numeral} : ExposesNumeral r numeral → ExposesNumeral (.binary (ascii "+") l r) numeral

/-- The immediates of a tree's code are the values of the numerals it exposes. -/
theorem mem_immediates_code (t : Tree (List UInt8)) (imm : Int) :
    imm ∈ immediates t.code ↔ ∃ numeral, ExposesNumeral t numeral ∧ imm = (decimal numeral : Int) := by
  induction t with
  | number n =>
    constructor
    · intro h
      exact ⟨n, .here, List.mem_singleton.mp h⟩
    · rintro ⟨_, ⟨⟩, rfl⟩
      exact List.mem_singleton_self _
  | identifier name =>
    constructor
    · intro h
      cases h
    · rintro ⟨_, h, _⟩
      cases h
  | binary op l r ihl ihr =>
    by_cases hop : op = ascii "+"
    · subst hop
      rw [immediates_add, List.mem_append, ihl, ihr]
      constructor
      · rintro (⟨n, h, heq⟩ | ⟨n, h, heq⟩)
        · exact ⟨n, .left h, heq⟩
        · exact ⟨n, .right h, heq⟩
      · rintro ⟨n, h, heq⟩
        cases h with
        | left h => exact .inl ⟨n, h, heq⟩
        | right h => exact .inr ⟨n, h, heq⟩
    · rw [code_other hop]
      constructor
      · intro h
        cases h
      · rintro ⟨n, h, _⟩
        cases h <;> exact absurd rfl hop

theorem immediates_mainCode (code : List Arm64.Instr) : immediates (mainCode code) = immediates code := by
  show immediates (code ++ [.ldpPost 29 30 16, .ret]) = _
  rw [immediates_append]
  exact List.append_nil _

theorem mem_immediates_flatten {chunks : List (List Arm64.Instr)} {imm : Int} :
    imm ∈ immediates chunks.flatten ↔ ∃ chunk ∈ chunks, imm ∈ immediates chunk := by
  induction chunks with
  | nil => exact ⟨fun h => (nomatch h), fun ⟨_, h, _⟩ => (nomatch h)⟩
  | cons chunk chunks ih =>
    rw [List.flatten_cons, immediates_append, List.mem_append, ih]
    simp

/-- Each `mov` of an immediate in the file's `main` can be encoded. -/
def Assemblable (text : List UInt8) : Prop :=
  ∃ code, Arm64.codeAt (ascii "main") text = some code ∧
    ∀ imm ∈ immediates code, ∃ v : Nat, imm = v ∧ Arm64.isMovable v = true

/-- The numerals that a program exposes in its values have values that `mov` can load. -/
def ExposesMovable (input : List UInt8) : Prop :=
  ∀ ss, Prog (lexemes input) ss → ∀ s ∈ ss, ∀ numeral, ExposesNumeral s.value numeral →
    Arm64.isMovable (decimal numeral) = true

theorem assemblable_iff {ss : List (Statement (List UInt8))} (h : ∀ line ∈ linesOf ss, line.valid = true) :
    Assemblable (prologue ++ textOf (linesOf ss) ++ epilogue) ↔
      ∀ s ∈ ss, ∀ numeral, ExposesNumeral s.value numeral → Arm64.isMovable (decimal numeral) = true := by
  have hmem (imm : Int) : imm ∈ immediates (mainCode ((linesOf ss).map Line.instr)) ↔
      ∃ s ∈ ss, ∃ numeral, ExposesNumeral s.value numeral ∧ imm = (decimal numeral : Int) := by
    rw [immediates_mainCode, code_linesOf, mem_immediates_flatten]
    simp only [List.mem_map, exists_exists_and_eq_and, mem_immediates_code]
  constructor
  · rintro ⟨code, hcode, hall⟩ s hs numeral hn
    rw [codeAt_main h, Option.some.injEq] at hcode
    subst hcode
    obtain ⟨v, hv, hmovable⟩ := hall _ ((hmem _).mpr ⟨s, hs, numeral, hn, rfl⟩)
    rw [Int.ofNat_inj.mp hv]
    exact hmovable
  · intro hall
    refine ⟨_, codeAt_main h, fun imm himm => ?_⟩
    obtain ⟨s, hs, numeral, hn, rfl⟩ := (hmem imm).mp himm
    exact ⟨_, rfl, hall s hs numeral hn⟩

/-- **The file can be assembled iff the numerals it exposes can be encoded.** For every
input on which the compiler completes. -/
theorem immediates_movable_iff {access : Access} {input text : List UInt8}
    (h : assembler access (Parser.init input) = .ok (.file text)) :
    Assemblable text ↔ ExposesMovable input := by
  obtain ⟨ss, hss, _, hout⟩ := assembler_ok h
  cases hout
  have hlex := lexical_lexemes input
  rw [assemblable_iff (hss.lines_valid hlex)]
  constructor
  · intro hall ss' hss'
    rw [((prog_iff hlex).mp hss').unique ((prog_iff hlex).mp hss)]
    exact hall
  · intro hall
    exact hall ss hss

theorem immediates_movable_small : ∃ text,
    assembler .granted (Parser.init (ascii "var x = 65535 + 8;")) = .ok (.file text) ∧ Assemblable text := by
  have hrun : Descent.program chapter08 20 20 (lexemes (ascii "var x = 65535 + 8;")) =
      .ok [⟨ascii "x", .binary (ascii "+") (.number (ascii "65535")) (.number (ascii "8"))⟩] := by
    decide +kernel
  have h := assembler_program (Descent.program_sound hrun)
  refine ⟨_, h, (immediates_movable_iff h).mpr fun ss hss s hs numeral hn => ?_⟩
  have hprogram := (prog_iff (lexical_lexemes (ascii "var x = 65535 + 8;"))).mp hss
  rw [hprogram.unique (Descent.program_sound hrun)] at hs
  obtain rfl := List.mem_singleton.mp hs
  cases hn with
  | left hn => cases hn; exact Arm64.isMovable_of_lt (by decide +kernel)
  | right hn => cases hn; exact Arm64.isMovable_of_lt (by decide +kernel)

/-- `var x = 65537;` compiles to a `mov` that does not exist. -/
theorem literal_not_movable :
    assembler .checked (Parser.init (ascii "var x = 65537;")) =
        .ok (.file (prologue ++ textOf [.load (ascii "65537")] ++ epilogue)) ∧
      ¬ Assemblable (prologue ++ textOf [.load (ascii "65537")] ++ epilogue) := by
  have hrun : Descent.program chapter08 16 16 (lexemes (ascii "var x = 65537;")) =
      .ok [⟨ascii "x", .number (ascii "65537")⟩] := by decide +kernel
  refine ⟨by decide +kernel, ?_⟩
  have hiff := @assemblable_iff [⟨ascii "x", .number (ascii "65537")⟩] (by decide +kernel)
  intro hassemblable
  have := hiff.mp hassemblable _ (List.mem_singleton_self _) _ .here
  exact absurd this (by decide +kernel)

end CompilingToAssembly
