import CompilingToAssembly.Assembler.Lines
import CompilingToAssembly.Parser.Diagnosis

/-! Compiling two texts one after the other.

A program ends with a semicolon, which takes nothing that may follow it, so the
tokens of a program and of any text behind it are those of the two apart
(`lexemes_program_append`). The parser is at a statement's end there and has nothing
to remember (`Program.split`), and neither has the generator. -/
namespace CompilingToAssembly
open Library

namespace Descent
variable {ν : Type} {ch : Chapter ν}

theorem Program.getLast {ls : List Lexeme} {ss : List (Statement ν)} (h : Program ch ls ss) :
    ∀ l ∈ ls.getLast?, isSemicolon l = true := by
  induction h with
  | nil => intro l hl; cases hl
  | @cons u v s ss hs _ ih =>
    intro l hl
    rw [List.getLast?_append] at hl
    cases hv : v.getLast? with
    | some l' =>
      rw [hv] at hl ih
      exact ih l hl
    | none =>
      rw [hv] at hl
      cases hs with
      | @mk w i e s u t _ _ _ hsemi _ =>
        have hshape : w :: i :: e :: (u ++ [s]) = (w :: i :: e :: u) ++ [s] := rfl
        rw [hshape, List.getLast?_concat] at hl
        cases hl
        exact hsemi

/-- The first statement of a program is determined by its tokens. -/
theorem Program.tail {u rest : List Lexeme} {s : Statement ν} {ss : List (Statement ν)}
    (hs : IsStatement ch u s) (h : Program ch (u ++ rest) ss) :
    ∃ ss', ss = s :: ss' ∧ Program ch rest ss' := by
  have hok := statement_complete hs (Nat.le_refl (u ++ rest).length)
  generalize hall : u ++ rest = all at h hok
  cases h with
  | nil => exact absurd (List.append_eq_nil_iff.mp hall).1 hs.ne_nil
  | cons hs' h' =>
    rw [statement_complete hs' (Nat.le_refl _)] at hok
    cases hok
    exact ⟨_, rfl, h'⟩

/-- Behind a program the parser starts afresh. -/
theorem Program.split {u v : List Lexeme} {ss₁ ss : List (Statement ν)} (h₁ : Program ch u ss₁)
    (h : Program ch (u ++ v) ss) : ∃ ss₂, ss = ss₁ ++ ss₂ ∧ Program ch v ss₂ := by
  induction h₁ generalizing ss with
  | nil => exact ⟨ss, rfl, h⟩
  | cons hs _ ih =>
    rw [List.append_assoc] at h
    obtain ⟨ss', rfl, h'⟩ := Program.tail hs h
    obtain ⟨ss₂, rfl, h₂⟩ := ih h'
    exact ⟨ss₂, rfl, h₂⟩

end Descent

theorem lexemes_program_append {s₁ : List UInt8} {ss : List (Statement (List UInt8))}
    (h : Descent.Program chapter08 (lexemes s₁) ss) (s₂ : List UInt8) :
    lexemes (s₁ ++ s₂) = lexemes s₁ ++ lexemes s₂ := by
  apply lexemes_append
  intro l hl b _ hglue
  have hk : l.kind = .Semicolon := eq_of_beq (h.getLast l hl)
  rcases glue_cases (lexical_lexemes s₁ l (List.mem_of_getLast? hl)) hglue with ⟨hword, _⟩ | ⟨hop, _⟩
  · simp [isWord, hk] at hword
  · rw [hk] at hop
    cases hop

theorem linesOf_append (ss₁ ss₂ : List (Statement (List UInt8))) :
    linesOf (ss₁ ++ ss₂) = linesOf ss₁ ++ linesOf ss₂ := List.flatMap_append

theorem stuckIn_append (ss₁ ss₂ : List (Statement (List UInt8))) :
    stuckIn (ss₁ ++ ss₂) = (stuckIn ss₁ || stuckIn ss₂) := List.any_append

/-! ### Both texts -/

section
variable {s₁ s₂ : List UInt8} {ss₁ : List (Statement (List UInt8))}
  (h₁ : Descent.Program chapter08 (lexemes s₁) ss₁)
include h₁

theorem program_append {ss₂ : List (Statement (List UInt8))}
    (h₂ : Descent.Program chapter08 (lexemes s₂) ss₂) :
    Descent.Program chapter08 (lexemes (s₁ ++ s₂)) (ss₁ ++ ss₂) := by
  rw [lexemes_program_append h₁]
  exact h₁.append h₂

theorem accepts_append : Chapter08.Accepts (s₁ ++ s₂) ↔ Chapter08.Accepts s₂ := by
  rw [Chapter08.accepts_iff, Chapter08.accepts_iff]
  constructor
  · rintro ⟨ss, hss⟩
    rw [lexemes_program_append h₁] at hss
    obtain ⟨ss₂, _, hss₂⟩ := h₁.split hss
    exact ⟨ss₂, hss₂⟩
  · rintro ⟨ss₂, hss₂⟩
    exact ⟨_, program_append h₁ hss₂⟩

end

theorem assembler_append {access : Access} {s₁ s₂ text₁ text₂ : List UInt8}
    (hfile₁ : assembler access (Parser.init s₁) = .ok (.file text₁))
    (hfile₂ : assembler access (Parser.init s₂) = .ok (.file text₂)) :
    ∃ body₁ body₂, text₁ = prologue ++ body₁ ++ epilogue ∧ text₂ = prologue ++ body₂ ++ epilogue ∧
      assembler .granted (Parser.init (s₁ ++ s₂)) =
        .ok (.file (prologue ++ (body₁ ++ body₂) ++ epilogue)) := by
  obtain ⟨ss₁, hss₁, hstuck₁, hout₁⟩ := assembler_ok hfile₁
  obtain ⟨ss₂, hss₂, hstuck₂, hout₂⟩ := assembler_ok hfile₂
  cases hout₁
  cases hout₂
  refine ⟨textOf (linesOf ss₁), textOf (linesOf ss₂), rfl, rfl, ?_⟩
  have hprogram₁ := (prog_iff (lexical_lexemes s₁)).mp hss₁
  have hprogram₂ := (prog_iff (lexical_lexemes s₂)).mp hss₂
  rw [assembler_program (program_append hprogram₁ hprogram₂), stuckIn_append, hstuck₁, hstuck₂, linesOf_append,
    textOf_append]
  rfl

/-- **Compilation is compositional.** Behind an accepted text another is accepted iff
it is on its own; the statements of the two together are those of the first followed
by those of the second, and so is the text between prologue and epilogue. Whether the
pointers of the two together are still current is the one thing that does not carry
over: where they are taken to be the file is written, and where they are checked no
other file is. -/
theorem compile_append {s₁ : List UInt8} {root₁ : Pointer} {self₁ : Parser (List UInt8)}
    (h₁ : Chapter08.parse (Parser.init s₁) = .ok (root₁, self₁)) (s₂ : List UInt8) :
    (Chapter08.Accepts (s₁ ++ s₂) ↔ Chapter08.Accepts s₂) ∧
      (∀ root₂ self₂, Chapter08.parse (Parser.init s₂) = .ok (root₂, self₂) →
        ∃ root self ss₁ ss₂, Chapter08.parse (Parser.init (s₁ ++ s₂)) = .ok (root, self) ∧
          IsBlock self₁.nodes root₁ ss₁ ∧ IsBlock self₂.nodes root₂ ss₂ ∧
          IsBlock self.nodes root (ss₁ ++ ss₂)) ∧
      ∀ access text₁ text₂, assembler access (Parser.init s₁) = .ok (.file text₁) →
        assembler access (Parser.init s₂) = .ok (.file text₂) →
        ∃ body₁ body₂, text₁ = prologue ++ body₁ ++ epilogue ∧
          text₂ = prologue ++ body₂ ++ epilogue ∧
          assembler .granted (Parser.init (s₁ ++ s₂)) =
            .ok (.file (prologue ++ (body₁ ++ body₂) ++ epilogue)) ∧
          ∀ out, assembler .checked (Parser.init (s₁ ++ s₂)) = .ok out →
            out = .file (prologue ++ (body₁ ++ body₂) ++ epilogue) := by
  obtain ⟨ss₁, items₁, after₁, hss₁, hroot₁, hbuilt₁⟩ := Chapter08.program_of_parse h₁
  refine ⟨accepts_append hss₁, ?_, ?_⟩
  · intro root₂ self₂ h₂
    obtain ⟨ss₂, items₂, after₂, hss₂, hroot₂, hbuilt₂⟩ := Chapter08.program_of_parse h₂
    obtain ⟨items, after, hparse, hbuilt⟩ := Chapter08.parse_of_program (program_append hss₁ hss₂)
    cases hroot₁
    cases hroot₂
    exact ⟨_, _, ss₁, ss₂, hparse, Chapter08.isBlock_pushNode hbuilt₁,
      Chapter08.isBlock_pushNode hbuilt₂, Chapter08.isBlock_pushNode hbuilt⟩
  · intro access text₁ text₂ hfile₁ hfile₂
    obtain ⟨body₁, body₂, htext₁, htext₂, hboth⟩ := assembler_append hfile₁ hfile₂
    refine ⟨body₁, body₂, htext₁, htext₂, hboth, fun out hout => ?_⟩
    exact Except.ok.inj ((assembler_granted_of_ok hout).symm.trans hboth)

theorem compile_append_two : ∃ body₁ body₂,
    assembler .checked (Parser.init (ascii "var a = 1;")) = .ok (.file (prologue ++ body₁ ++ epilogue)) ∧
      assembler .checked (Parser.init (ascii "var b = 2 + 3;")) = .ok (.file (prologue ++ body₂ ++ epilogue)) ∧
      assembler .checked (Parser.init (ascii "var a = 1;" ++ ascii "var b = 2 + 3;")) =
        .ok (.file (prologue ++ (body₁ ++ body₂) ++ epilogue)) := by
  obtain ⟨root, self, h⟩ := Chapter08.exists_parse (ascii "var a = 1;") (by decide +kernel)
  have h₁ : assembler .checked (Parser.init (ascii "var a = 1;")) =
      .ok (.file (prologue ++ textOf [.load (ascii "1")] ++ epilogue)) := by decide +kernel
  have h₂ : assembler .checked (Parser.init (ascii "var b = 2 + 3;")) =
      .ok (.file (prologue ++ textOf [.load (ascii "2"), .park, .load (ascii "3"), .add] ++ epilogue)) := by
    decide +kernel
  have hrun : (assembler .checked (Parser.init (ascii "var a = 1;" ++ ascii "var b = 2 + 3;"))).isOk = true := by
    decide +kernel
  obtain ⟨body₁, body₂, hbody₁, hbody₂, _, hall⟩ := (compile_append h _).2.2 _ _ _ h₁ h₂
  rw [hbody₁] at h₁
  rw [hbody₂] at h₂
  refine ⟨body₁, body₂, h₁, h₂, ?_⟩
  cases hboth : assembler .checked (Parser.init (ascii "var a = 1;" ++ ascii "var b = 2 + 3;")) with
  | error stop => rw [hboth] at hrun; cases hrun
  | ok out => rw [hall out hboth]

end CompilingToAssembly
