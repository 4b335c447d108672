import CompilingToAssembly.Library.Viable
import CompilingToAssembly.Parser.Grammar

/-! What the parser's two errors mean.

`MissingToken` is reported when the tokens ran out where a program could have gone
on, and `InvalidToken` at a token after which none can. For the descent these are
`program_missing`, which completes the tokens there are with a few more, and
`program_invalid`; the texts behind them come from `lexemes_append_spell`. -/
namespace CompilingToAssembly
open Library Climb

namespace Descent
variable {ν : Type} {ch : Chapter ν}

/-! ### Running out of tokens -/

/-- Tokens that complete anything that can be completed. A `var` does for a name and
for an operand too. -/
def varWord : Lexeme := ⟨.Identifier, ascii "var"⟩
def equals : Lexeme := ⟨.Operator, ascii "="⟩
def closing : Lexeme := ⟨.RightParen, ascii ")"⟩
def semicolon : Lexeme := ⟨.Semicolon, ascii ";"⟩

def completions : List Lexeme := [varWord, equals, closing, semicolon]

theorem derives_varWord : Derives (operators ch) 0 [varWord] (.identifier (ascii "var")) := .leaf rfl

theorem assigned_missing {n : Nat} {name : List UInt8} {ls : List Lexeme}
    (h : assigned ch n name ls = .error .missing) :
    ∃ more u t, (∀ l ∈ more, l ∈ completions) ∧ ls ++ more = u ++ [semicolon] ∧
      Derives (operators ch) 0 u t := by
  rcases assigned_error h with hc | ⟨value, rest, hc, hsemi⟩
  · obtain ⟨more, t, hmore, hd⟩ := climb_missing (x := varWord) (c := closing) rfl rfl n 0 ls hc
    refine ⟨more ++ [semicolon], ls ++ more, t, ?_, by simp, hd⟩
    intro l hl
    rcases List.mem_append.mp hl with hl | hl
    · rcases hmore l hl with rfl | rfl <;> simp [completions]
    · rw [List.mem_singleton.mp hl]
      simp [completions]
  · rcases expect_error hsemi with ⟨rfl, _⟩ | ⟨_, _, _, _, he⟩
    · obtain ⟨u, rfl, hu, _⟩ := climb_sound n 0 _ _ _ hc
      exact ⟨[semicolon], u, value, by simp [completions], by simp, hu⟩
    · cases he

/-- A statement that runs out of tokens can be completed. -/
theorem statement_missing {n : Nat} {ls : List Lexeme} (h : statement ch n ls = .error .missing) :
    ∃ more st, (∀ l ∈ more, l ∈ completions) ∧ IsStatement ch (ls ++ more) st := by
  have value : Derives (operators ch) 0 [varWord] (.identifier (ascii "var")) := derives_varWord
  rcases statement_error h with he | ⟨_, rfl⟩ | ⟨v, hv, ⟨_, rfl⟩ | ⟨i, hi, ⟨_, rfl⟩ | ⟨q, us, hq, rfl, ha⟩⟩⟩
  · cases he
  · exact ⟨[varWord, varWord, equals, varWord, semicolon], _, by simp [completions],
      .mk (v := varWord) (i := varWord) (e := equals) (s := semicolon) rfl rfl rfl rfl value⟩
  · exact ⟨[varWord, equals, varWord, semicolon], _, by simp [completions],
      .mk (i := varWord) (e := equals) (s := semicolon) hv rfl rfl rfl value⟩
  · exact ⟨[equals, varWord, semicolon], _, by simp [completions],
      .mk (e := equals) (s := semicolon) hv hi rfl rfl value⟩
  · obtain ⟨more, u, t, hmore, hshape, hd⟩ := assigned_missing ha
    refine ⟨more, ⟨i.text, t⟩, hmore, ?_⟩
    rw [List.cons_append, List.cons_append, List.cons_append, hshape]
    exact .mk (s := semicolon) hv hi hq rfl hd

/-- **A program that runs out of tokens can be completed.** -/
theorem program_missing {n m : Nat} {ls : List Lexeme} (h : program ch n m ls = .error .missing) :
    ∃ more ss, (∀ l ∈ more, l ∈ completions) ∧ Program ch (ls ++ more) ss := by
  induction m generalizing ls with
  | zero => cases h
  | succ m ih =>
    rcases program_error h with hs | ⟨s, rest, hs, hp⟩
    · obtain ⟨more, st, hmore, hst⟩ := statement_missing hs
      refine ⟨more, [st], hmore, ?_⟩
      rw [← List.append_nil (ls ++ more)]
      exact .cons hst .nil
    · obtain ⟨u, rfl, hu⟩ := statement_sound hs
      obtain ⟨more, ss, hmore, hss⟩ := ih hp
      refine ⟨more, s :: ss, hmore, ?_⟩
      rw [List.append_assoc]
      exact .cons hu hss

/-! ### A token that cannot be used -/

theorem expect_settled (accepts : Lexeme → Bool) :
    Settled (ε := ParseIntError) (expect accepts) := by
  constructor
  · intro ls more h
    rcases expect_error h with ⟨_, he⟩ | ⟨l, rest, rfl, hno, _⟩
    · cases he
    · simp [expect, hno]
  · intro ls more a l rest h
    obtain ⟨rfl, ha⟩ := expect_ok h
    simp [expect, ha]

theorem ended_settled (name : List UInt8) (value : Tree ν) :
    Settled (ε := ParseIntError) (ended name value) := by
  constructor
  · intro ls more h
    unfold ended at h ⊢
    cases he : expect isSemicolon ls with
    | error e => rw [he] at h; cases h; rw [(expect_settled _).invalid ls more he]
    | ok r => rw [he] at h; cases h
  · intro ls more a l rest h
    unfold ended at h ⊢
    cases he : expect isSemicolon ls with
    | error e => rw [he] at h; cases h
    | ok r =>
      obtain ⟨s, us⟩ := r
      rw [he] at h
      cases h
      rw [(expect_settled _).stopped ls more s l rest he]

theorem statement_settled {n : Nat} (hn : 0 < n) : Settled (statement ch n) := by
  have hclimb : climb (operators ch) n 0 [] = .error .missing := by
    obtain ⟨k, rfl⟩ : ∃ k, n = k + 1 := ⟨n - 1, by omega⟩
    rfl
  have hassigned (name : List UInt8) : Settled (assigned ch n name) :=
    (climb_invalid (G := operators ch) n 0).andThen (ended_settled name) (fun _ => rfl)
      (fun _ _ h => by simp only [assigned, h]) (fun _ _ _ h => by simp only [assigned, h])
  have hnamed (name : List UInt8) : Settled (named ch n name) :=
    (expect_settled isEquals).andThen (fun _ => hassigned name)
      (fun _ => by simp only [assigned, hclimb])
      (fun _ _ h => by simp only [named, h]) (fun _ _ _ h => by simp only [named, h])
  have hdeclared : Settled (declared ch n) :=
    (expect_settled isIdentifier).andThen (fun name => hnamed name.text) (fun _ => rfl)
      (fun _ _ h => by simp only [declared, h]) (fun _ _ _ h => by simp only [declared, h])
  exact (expect_settled isVarWord).andThen (fun _ => hdeclared) (fun _ => rfl)
    (fun _ _ h => by simp only [statement, h]) (fun _ _ _ h => by simp only [statement, h])

/-- More budget changes nothing. -/
theorem statement_mono {n m : Nat} (hnm : n ≤ m) {ls : List Lexeme}
    (h : statement ch n ls ≠ .error .fuel) : statement ch m ls = statement ch n ls := by
  unfold statement at h ⊢
  cases hv : expect isVarWord ls with
  | error e => rfl
  | ok r =>
    rw [hv] at h
    simp only [declared] at h ⊢
    cases hi : expect isIdentifier r.2 with
    | error e => rfl
    | ok r =>
      rw [hi] at h
      simp only [named] at h ⊢
      cases hq : expect isEquals r.2 with
      | error e => rfl
      | ok r =>
        rw [hq] at h
        simp only [assigned] at h ⊢
        rw [climb_mono hnm 0 r.2]
        intro hc
        rw [hc] at h
        exact h rfl

/-- **What the descent rejects begins no program.** -/
theorem program_invalid {n m : Nat} (hn : 0 < n) {ls : List Lexeme}
    (h : program ch n m ls = .error .invalid) (more : List Lexeme) (ss : List (Statement ν)) :
    ¬ Program ch (ls ++ more) ss := by
  induction m generalizing ls ss with
  | zero => cases h
  | succ m ih =>
    intro hprogram
    -- a budget that is enough for the longer list, and changes nothing on `ls`
    let big := max n (ls ++ more).length
    have hbig : 0 < big := Nat.lt_of_lt_of_le hn (Nat.le_max_left ..)
    generalize hall : ls ++ more = all at hprogram
    rcases program_error h with hs | ⟨s, rest, hs, hp⟩
    · have hfail : statement ch big all = .error .invalid := by
        rw [← hall]
        apply (statement_settled hbig).invalid
        rw [statement_mono (Nat.le_max_left ..) (by rw [hs]; simp), hs]
      cases hprogram with
      | nil =>
        obtain ⟨rfl, _⟩ := List.append_eq_nil_iff.mp hall
        cases hs
      | @cons u v s ss hu _ =>
        rw [statement_complete hu (by rw [← hall]; exact Nat.le_max_right ..)] at hfail
        cases hfail
    · cases rest with
      | nil => cases m <;> cases hp
      | cons l rest =>
        have hok : statement ch big all = .ok (s, l :: (rest ++ more)) := by
          rw [← hall]
          apply (statement_settled hbig).stopped
          rw [statement_mono (Nat.le_max_left ..) (by rw [hs]; simp), hs]
        cases hprogram with
        | nil =>
          obtain ⟨rfl, _⟩ := List.append_eq_nil_iff.mp hall
          cases hs
        | @cons u v s' ss hu hv =>
          rw [statement_complete hu (by rw [← hall]; exact Nat.le_max_right ..)] at hok
          cases hok
          exact ih hp ss hv

end Descent

/-! ### The parser's errors -/

def Chapter08.Accepts (input : List UInt8) : Prop :=
  ∃ root self, parse (Parser.init input) = .ok (root, self)

theorem Chapter08.accepts_iff {input : List UInt8} :
    Accepts input ↔ ∃ ss, Descent.Program chapter08 (lexemes input) ss := by
  constructor
  · rintro ⟨root, self, h⟩
    obtain ⟨ss, _, _, hss, _⟩ := program_of_parse h
    exact ⟨ss, hss⟩
  · rintro ⟨ss, hss⟩
    obtain ⟨items, after, h, _⟩ := parse_of_program hss
    exact ⟨_, _, h⟩

/-- The parser fails as the descent does. -/
theorem Chapter08.parse_error {input : List UInt8} {e : Error} :
    parse (Parser.init input) = .error e ↔
      Descent.program chapter08 (input.length + 2) (input.length + 2) (lexemes input) = .error e := by
  have hinit := parseStatements_init chapter08 (reads_lexemes input)
  rw [parse_eq]
  cases hp : Descent.program chapter08 (input.length + 2) (input.length + 2) (lexemes input) with
  | error e' =>
    rw [hp] at hinit
    simp only at hinit
    rw [hinit]
    simp
  | ok ss =>
    rw [hp] at hinit
    obtain ⟨items, after, hafter, _⟩ := hinit
    rw [hafter]
    simp

/-- An input is accepted, incomplete or wrong, and there is no fourth. -/
theorem Chapter08.parse_cases (input : List UInt8) :
    Accepts input ∨ parse (Parser.init input) = .error MissingToken ∨
      parse (Parser.init input) = .error InvalidToken := by
  have hlen := reads_length_le (reads_lexemes input)
  cases hp : parse (Parser.init input) with
  | ok r => exact .inl ⟨r.1, r.2, hp⟩
  | error e =>
    have hprogram := parse_error.mp hp
    cases e with
    | missing => exact .inr (.inl rfl)
    | invalid => exact .inr (.inr rfl)
    | fuel => exact absurd hprogram (Descent.program_fuel (by omega) (by omega))
    | leaf e =>
      obtain ⟨_, _, _, hnumber⟩ := Descent.program_leaf hprogram
      cases hnumber

/-- What runs out of tokens begins an accepted text with more tokens. -/
theorem Chapter08.parse_missing {input : List UInt8}
    (h : parse (Parser.init input) = .error MissingToken) :
    ∃ other, Accepts other ∧ lexemes input <+: lexemes other ∧ lexemes input ≠ lexemes other := by
  obtain ⟨more, ss, hmore, hss⟩ := Descent.program_missing (parse_error.mp h)
  have hlex : Lexical more := by
    have hall : ∀ l ∈ Descent.completions, inClass l.kind l.text = true := by decide +kernel
    exact fun l hl => hall l (hmore l hl)
  have hother := lexemes_append_spell input hlex
  rw [← hother] at hss
  have haccepts : Accepts (input ++ spell more) := accepts_iff.mpr ⟨ss, hss⟩
  refine ⟨input ++ spell more, haccepts, ⟨more, hother.symm⟩, ?_⟩
  intro heq
  rw [← heq] at hss
  obtain ⟨_, _, hok⟩ := accepts_iff.mpr ⟨ss, hss⟩
  rw [h] at hok
  cases hok

/-- What is rejected begins no accepted text. -/
theorem Chapter08.parse_invalid {input : List UInt8}
    (h : parse (Parser.init input) = .error InvalidToken) {other : List UInt8}
    (hother : Accepts other) : ¬ lexemes input <+: lexemes other := by
  rintro ⟨more, hmore⟩
  obtain ⟨ss, hss⟩ := accepts_iff.mp hother
  rw [← hmore] at hss
  exact Descent.program_invalid (Nat.succ_pos _) (parse_error.mp h) more ss hss

theorem Chapter08.parse_missing_iff {input : List UInt8} :
    parse (Parser.init input) = .error MissingToken ↔ ¬ Accepts input ∧ ∃ other, Accepts other ∧
      lexemes input <+: lexemes other ∧ lexemes input ≠ lexemes other := by
  refine ⟨fun h => ⟨?_, parse_missing h⟩, ?_⟩
  · rintro ⟨root, self, hok⟩
    rw [h] at hok
    cases hok
  · rintro ⟨hno, other, hother, hprefix, _⟩
    rcases parse_cases input with hok | hmissing | hinvalid
    · exact absurd hok hno
    · exact hmissing
    · exact absurd hprefix (parse_invalid hinvalid hother)

theorem Chapter08.parse_invalid_iff {input : List UInt8} :
    parse (Parser.init input) = .error InvalidToken ↔
      ∀ other, Accepts other → ¬ lexemes input <+: lexemes other := by
  refine ⟨fun h other hother => parse_invalid h hother, fun hnone => ?_⟩
  rcases parse_cases input with hok | hmissing | hinvalid
  · exact absurd List.prefix_rfl (hnone input hok)
  · obtain ⟨other, hother, hprefix, _⟩ := parse_missing hmissing
    exact absurd hprefix (hnone other hother)
  · exact hinvalid

/-- **The error separates incomplete programs from wrong ones.** `MissingToken` is
returned exactly for the inputs whose tokens are no program but a proper prefix of
the tokens of one, `InvalidToken` exactly for those whose tokens begin no program. -/
theorem parse_error_meaning (input : List UInt8) :
    (Chapter08.parse (Parser.init input) = .error MissingToken ↔
        (¬ ∃ ss, Prog (lexemes input) ss) ∧ ∃ other, Chapter08.Accepts other ∧
          lexemes input <+: lexemes other ∧ lexemes input ≠ lexemes other) ∧
      (Chapter08.parse (Parser.init input) = .error InvalidToken ↔
        ∀ other, Chapter08.Accepts other → ¬ lexemes input <+: lexemes other) := by
  have haccepts : Chapter08.Accepts input ↔ ∃ ss, Prog (lexemes input) ss := by
    simp only [Chapter08.accepts_iff, prog_iff (lexical_lexemes input)]
  rw [← haccepts]
  exact ⟨Chapter08.parse_missing_iff, Chapter08.parse_invalid_iff⟩

end CompilingToAssembly
