import CompilingToAssembly.Parser.Consumption

/-! Parsing ends.

`parseWithin n` is `parse` with `n` for the budget of every loop and recursion,
which the source does not bound. A result that is not for want of budget stays the
same with more of it (`parseExpressionWithin_extends`), and `parse` has such a result
within the budget that it is given. In chapter 6 that is so although a call of `next`
may leave the lexer where it was. -/
namespace CompilingToAssembly
open Library

namespace Parser
variable {ν : Type} (ch : Chapter ν)

/-- `parseStatement` with a given parser of the value. -/
def parseStatementWith (parseValue : Parser ν → Except Error (Pointer × Parser ν)) (self : Parser ν) :
    Except Error (Ast ν × Parser ν) :=
  match self.next ch with
  | .error e => .error e
  | .ok (token, self) =>
    match token.tokenType with
    | .Identifier =>
      if !self.checkTokenStr token "var" then .error InvalidToken
      else
        match self.parseIdentifier ch with
        | .error e => .error e
        | .ok (identifier, self) =>
          match self.next ch with
          | .error e => .error e
          | .ok (eqToken, self) =>
            if !self.checkTokenStr eqToken "=" then .error InvalidToken
            else
              match parseValue self with
              | .error e => .error e
              | .ok (value, self) =>
                match self.expectTokenType ch .Semicolon with
                | .error e => .error e
                | .ok self => .ok (.Var identifier value, self)
    | _ => .error InvalidToken

/-- `parseStatements`, with the budget `n` for each value. -/
def parseStatementsWithin (n : Nat) : Nat → List (Ast ν) → Parser ν → Except Error (List (Ast ν) × Parser ν)
  | 0, _, _ => .error .fuel
  | m + 1, nodes, self =>
    match self.peek ch with
    | none => .ok (nodes, self)
    | some _ =>
      match self.parseStatementWith ch (parseExpressionWithin ch n 0) with
      | .error e => .error e
      | .ok (node, self) => parseStatementsWithin n m (nodes ++ [node]) self

theorem parseStatement_eq (self : Parser ν) :
    self.parseStatement ch = self.parseStatementWith ch fun self => self.parseExpression ch 0 := rfl

/-! ### More budget changes no result -/

variable {ch} {self : Parser ν}

/-- Where the one has a result that is not for want of budget, the other has the same. -/
def Extends (f g : UInt8 → Parser ν → Except Error (Pointer × Parser ν)) : Prop :=
  ∀ precedence self, f precedence self ≠ .error .fuel → g precedence self = f precedence self

section
variable {f g : UInt8 → Parser ν → Except Error (Pointer × Parser ν)} (hfg : Extends f g)
include hfg

theorem parsePrefix_extends (h : self.parsePrefix ch f ≠ .error .fuel) :
    self.parsePrefix ch g = self.parsePrefix ch f := by
  unfold parsePrefix at h ⊢
  cases hpeek : self.peek ch with
  | none => rfl
  | some token =>
    simp only [hpeek] at h ⊢
    cases htype : token.tokenType with
    | LeftParen =>
      simp only [htype] at h ⊢
      cases hopen : self.expectTokenType ch .LeftParen with
      | error e => rfl
      | ok inner =>
        have hinner : f 0 inner ≠ .error .fuel := by
          intro he
          simp only [hopen, he] at h
          exact h rfl
        dsimp only
        rw [hfg 0 inner hinner]
    | _ => rfl

theorem parseInfix_extends {left : Pointer} (h : self.parseInfix ch f left ≠ .error .fuel) :
    self.parseInfix ch g left = self.parseInfix ch f left := by
  unfold parseInfix at h ⊢
  cases hnext : self.next ch with
  | error e => rfl
  | ok r =>
    obtain ⟨token, after⟩ := r
    simp only [hnext] at h ⊢
    cases htype : token.tokenType with
    | Operator =>
      simp only [htype] at h ⊢
      split
      · next hop =>
        rw [if_pos hop] at h
        rw [hfg _ after fun he => by simp only [he] at h; exact h rfl]
      · rfl
    | _ => rfl

theorem parseInfixes_extends {precedence : UInt8} {n k : Nat} (hnk : n ≤ k) {left : Pointer}
    (h : self.parseInfixes ch f precedence n left ≠ .error .fuel) :
    self.parseInfixes ch g precedence k left = self.parseInfixes ch f precedence n left := by
  induction n generalizing self left k with
  | zero => exact absurd rfl h
  | succ n ih =>
    obtain ⟨k, rfl⟩ : ∃ k', k = k' + 1 := ⟨k - 1, by omega⟩
    unfold parseInfixes at h ⊢
    cases hpeek : self.peek ch with
    | none => rfl
    | some token =>
      simp only [hpeek] at h ⊢
      split
      · next hlt =>
        rw [if_pos hlt] at h
        have hinfix : self.parseInfix ch f left ≠ .error .fuel := by
          intro he
          rw [he] at h
          exact h rfl
        rw [parseInfix_extends hfg hinfix]
        cases hr : self.parseInfix ch f left with
        | error e => rfl
        | ok r =>
          obtain ⟨left', after⟩ := r
          rw [hr] at h
          exact ih (Nat.le_of_succ_le_succ hnk) h
      · rfl

end

theorem parseExpressionWithin_extends {n k : Nat} (hnk : n ≤ k) :
    Extends (parseExpressionWithin ch n) (parseExpressionWithin ch k) := by
  induction n generalizing k with
  | zero => exact fun _ _ h => absurd rfl h
  | succ n ih =>
    obtain ⟨k, rfl⟩ : ∃ k', k = k' + 1 := ⟨k - 1, by omega⟩
    have hnk := Nat.le_of_succ_le_succ hnk
    intro precedence self h
    unfold parseExpressionWithin at h ⊢
    have hprefix : self.parsePrefix ch (parseExpressionWithin ch n) ≠ .error .fuel := by
      intro he
      rw [he] at h
      exact h rfl
    rw [parsePrefix_extends (ih hnk) hprefix]
    cases hr : self.parsePrefix ch (parseExpressionWithin ch n) with
    | error e => rfl
    | ok r =>
      obtain ⟨left, after⟩ := r
      rw [hr] at h
      exact parseInfixes_extends (ih hnk) hnk h

/-! ### The budget of `parse` is enough -/

theorem Passes.input {after : Parser ν} (h : Passes ch self after) : after.lexer.input = self.lexer.input := by
  obtain ⟨ts, hts, _⟩ := h
  exact Lexer.steps_input hts

theorem next_input {t : Token} {after : Parser ν} (h : self.next ch = .ok (t, after)) :
    after.lexer.input = self.lexer.input := by
  unfold next at h
  split at h
  · cases h
  · next hnext =>
    cases h
    exact Lexer.steps_input (.one hnext)

theorem parseStatementWith_extends {f g : Parser ν → Except Error (Pointer × Parser ν)}
    (hfg : ∀ self', self'.lexer.input = self.lexer.input → f self' ≠ .error .fuel → g self' = f self')
    (h : self.parseStatementWith ch f ≠ .error .fuel) :
    self.parseStatementWith ch g = self.parseStatementWith ch f := by
  unfold parseStatementWith at h ⊢
  cases hvar : self.next ch with
  | error e => rfl
  | ok r =>
    obtain ⟨token, named⟩ := r
    simp only [hvar] at h ⊢
    cases htype : token.tokenType with
    | Identifier =>
      simp only [htype] at h ⊢
      split
      · rfl
      · next hword =>
        rw [if_neg hword] at h
        cases hname : named.parseIdentifier ch with
        | error e => rfl
        | ok r =>
          obtain ⟨identifier, signed⟩ := r
          simp only [hname] at h ⊢
          cases hequals : signed.next ch with
          | error e => rfl
          | ok r =>
            obtain ⟨eqToken, valued⟩ := r
            simp only [hequals] at h ⊢
            split
            · rfl
            · next hsign =>
              rw [if_neg hsign] at h
              -- the budget of a value is computed from the input, which no call changes
              have hinput : valued.lexer.input = self.lexer.input :=
                (next_input hequals).trans ((parseIdentifier_passes hname).input.trans (next_input hvar))
              rw [hfg valued hinput fun he => by rw [he] at h; exact h rfl]
    | _ => rfl

theorem parseStatementsWithin_eq {n m k : Nat} (hn : self.budget ≤ n) (hmk : m ≤ k) {nodes : List (Ast ν)}
    (h : parseStatements ch m nodes self ≠ .error .fuel) :
    parseStatementsWithin ch n k nodes self = parseStatements ch m nodes self := by
  induction m generalizing self nodes k with
  | zero => exact absurd rfl h
  | succ m ih =>
    obtain ⟨k, rfl⟩ : ∃ k', k = k' + 1 := ⟨k - 1, by omega⟩
    unfold parseStatements at h ⊢
    unfold parseStatementsWithin
    cases hpeek : self.peek ch with
    | none => rfl
    | some token =>
      simp only [hpeek] at h ⊢
      have hstatement : self.parseStatement ch ≠ .error .fuel := by
        intro he
        rw [he] at h
        exact h rfl
      have hwith : self.parseStatementWith ch (parseExpressionWithin ch n 0) = self.parseStatement ch := by
        rw [parseStatement_eq] at hstatement ⊢
        refine parseStatementWith_extends (fun self' hinput => ?_) hstatement
        have hbudget : self'.budget ≤ n := by
          rw [budget, hinput]
          exact hn
        exact parseExpressionWithin_extends hbudget 0 self'
      rw [hwith]
      cases hr : self.parseStatement ch with
      | error e => rfl
      | ok r =>
        obtain ⟨node, after⟩ := r
        rw [hr] at h
        have hbudget : after.budget ≤ n := by
          rw [budget, (parseStatement_passes hr).input]
          exact hn
        exact ih hbudget (Nat.le_of_succ_le_succ hmk) h

variable (ch) in
theorem parseStatements_ne_fuel (input : List UInt8) :
    (Parser.init input : Parser ν).parseStatements ch (input.length + 2) [] ≠ .error .fuel := by
  obtain ⟨ls, hls⟩ := @exists_reads ch.isNumeric input
  have hlen := hls.length_le
  have hfuel : Descent.program ch (input.length + 2) (input.length + 2) ls ≠ .error .fuel :=
    Descent.program_fuel (by omega) (by omega)
  have hinit := parseStatements_init ch hls
  cases hp : Descent.program ch (input.length + 2) (input.length + 2) ls with
  | error e =>
    rw [hp] at hinit hfuel
    rw [hinit]
    intro he
    cases he
    exact hfuel rfl
  | ok ss =>
    rw [hp] at hinit
    obtain ⟨items, after, hafter, _⟩ := hinit
    rw [hafter]
    exact fun he => (nomatch he)

end Parser

/-- `Chapter08.parse` with a given budget. -/
def Chapter08.parseWithin (n : Nat) (self : Parser (List UInt8)) :
    Except Error (Pointer × Parser (List UInt8)) :=
  match self.parseStatementsWithin chapter08 n n [] with
  | .error e => .error e
  | .ok (nodes, self) => .ok (self.pushNode (.Block nodes))

/-- `Chapter06.parse` with a given budget. -/
def Chapter06.parseWithin (n : Nat) (self : Parser Int) : Except Error (Parser Int) :=
  match self.parseStatementsWithin chapter06 n n [] with
  | .error e => .error e
  | .ok (nodes, self) => .ok { self with nodes := self.nodes.append (.Block nodes) }

/-- The run ends: from some budget on it has one result, which is not that the budget
is spent. -/
def Returns {α : Type} (run : Nat → Except Error α) (result : Except Error α) : Prop :=
  result ≠ .error .fuel ∧ ∃ bound, ∀ n, bound ≤ n → run n = result

theorem Chapter08.parse_returns (input : List UInt8) :
    Returns (fun n => parseWithin n (Parser.init input)) (parse (Parser.init input)) := by
  have hfuel := Parser.parseStatements_ne_fuel chapter08 input
  constructor
  · intro he
    unfold parse parseBody at he
    split at he
    · next hs =>
      cases he
      exact hfuel hs
    · cases he
  · refine ⟨input.length + 2, fun n hn => ?_⟩
    dsimp only [parseWithin]
    rw [Parser.parseStatementsWithin_eq hn hn hfuel]
    rfl

theorem Chapter06.parse_returns (input : List UInt8) :
    Returns (fun n => parseWithin n (Parser.init input)) (parse (Parser.init input)) := by
  have hfuel := Parser.parseStatements_ne_fuel chapter06 input
  constructor
  · intro he
    unfold parse parseBody at he
    split at he
    · next hs =>
      cases he
      exact hfuel hs
    · cases he
  · refine ⟨input.length + 2, fun n hn => ?_⟩
    dsimp only [parseWithin]
    rw [Parser.parseStatementsWithin_eq hn hn hfuel]
    rfl

theorem Chapter06.parse_passes {input : List UInt8} {after : Parser Int}
    (h : parse (Parser.init input) = .ok after) : Parser.Passes chapter06 (Parser.init input) after := by
  unfold parse parseBody at h
  split at h
  · cases h
  · next hs =>
    cases h
    exact (Parser.parseStatements_passes hs).1

/-- **Parsing ends on every input, in both chapters.** In chapter 6 a parse that
succeeds has consumed no token without text. -/
theorem parse_terminates (input : List UInt8) :
    Returns (fun n => Chapter08.parseWithin n (Parser.init input)) (Chapter08.parse (Parser.init input)) ∧
      Returns (fun n => Chapter06.parseWithin n (Parser.init input)) (Chapter06.parse (Parser.init input)) ∧
      ∀ after, Chapter06.parse (Parser.init input) = .ok after →
        Parser.Passes chapter06 (Parser.init input) after :=
  ⟨Chapter08.parse_returns input, Chapter06.parse_returns input, fun _ => Chapter06.parse_passes⟩

end CompilingToAssembly
