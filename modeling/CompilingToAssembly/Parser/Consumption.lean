import CompilingToAssembly.Parser.Progress
import CompilingToAssembly.Parser.Refinement

/-! What the parser consumes.

Every function of the parser moves the lexer by calls of `next` only. The lexer may
return a number without text and stay where it is, but no function that consumes
such a token succeeds: it fails the test of the token's type or text, or the
conversion of the number. So a function that returns has passed tokens with text
only (`parseStatements_passes`), in either chapter. -/
namespace CompilingToAssembly
open Library

namespace Parser
variable {ν : Type}

/-- The calls of `next` by which the parser came from one state to the other. -/
def Consumes (ch : Chapter ν) (self : Parser ν) (ts : List Token) (after : Parser ν) : Prop :=
  Steps (Lexer.next ch.isNumeric) self.lexer ts after.lexer

/-- The parser came from one state to the other past tokens with text. -/
def Passes (ch : Chapter ν) (self after : Parser ν) : Prop :=
  ∃ ts, Consumes ch self ts after ∧ ∀ t ∈ ts, t.start < t.finish

variable {ch : Chapter ν} {self after last : Parser ν} {p : Pointer} {t : Token}

theorem Passes.refl (self : Parser ν) : Passes ch self self := ⟨[], .nil, by simp⟩

theorem Passes.trans (h : Passes ch self after) (h' : Passes ch after last) : Passes ch self last := by
  obtain ⟨ts, hts, htext⟩ := h
  obtain ⟨us, hus, htext'⟩ := h'
  exact ⟨ts ++ us, hts.append hus, List.forall_mem_append.mpr ⟨htext, htext'⟩⟩

theorem Passes.pushNode (h : Passes ch self after) (node : Ast ν) :
    Passes ch self (after.pushNode node).2 := h

/-- A token that `next` returns has text, or is a number the chapter does not convert. -/
theorem next_text (h : self.next ch = .ok (t, after)) : Passes ch self after ∨
    (t.tokenType = .Number ∧ after.lexer.slice t = [] ∧ ∃ e, ch.number [] = .error e) := by
  unfold next at h
  split at h
  · cases h
  · next hnext =>
    cases h
    obtain ⟨_, r, hr, rfl, rfl⟩ := Lexer.next_ok hnext
    by_cases hnil : r.lexeme.text = []
    · obtain ⟨hl, he⟩ := read_text_nil hr hnil
      have htoken := Lexer.lexeme_token hr
      rw [hl] at htoken
      exact .inr ⟨congrArg Lexeme.kind htoken, congrArg Lexeme.text htoken, he⟩
    · exact .inl ⟨_, .one hnext, List.forall_mem_singleton.mpr (Lexer.token_progress hnil).1⟩

theorem next_passes_of_kind (h : self.next ch = .ok (t, after)) (hkind : t.tokenType ≠ .Number) :
    Passes ch self after :=
  (next_text h).resolve_right fun hempty => hkind hempty.1

theorem next_passes_of_text {str : String} (h : self.next ch = .ok (t, after))
    (htext : after.checkTokenStr t str = true) (hne : ascii str ≠ []) : Passes ch self after :=
  (next_text h).resolve_right fun hempty => hne ((eq_of_beq htext).symm.trans hempty.2.1)

theorem expectTokenType_passes {kind : TokenType} (hkind : kind ≠ .Number)
    (h : self.expectTokenType ch kind = .ok after) : Passes ch self after := by
  unfold expectTokenType at h
  split at h
  · cases h
  · next hnext =>
    split at h <;> cases h
    next htype => exact next_passes_of_kind hnext (by rw [not_not.mp htype]; exact hkind)

theorem parseIdentifier_passes (h : self.parseIdentifier ch = .ok (p, after)) : Passes ch self after := by
  unfold parseIdentifier at h
  split at h
  · cases h
  · next hnext =>
    split at h <;> cases h
    next htype => exact (next_passes_of_kind hnext (by rw [not_not.mp htype]; decide)).pushNode _

theorem parseNumber_passes (h : self.parseNumber ch = .ok (p, after)) : Passes ch self after := by
  unfold parseNumber at h
  split at h
  · cases h
  · next hnext =>
    split at h
    · cases h
    · split at h <;> cases h
      next hnumber =>
      rcases next_text hnext with hpass | ⟨_, hnil, e, he⟩
      · exact hpass.pushNode _
      -- a number without text, which is not converted
      · rw [hnil, he] at hnumber
        cases hnumber

theorem parsePrimaryExpression_passes (h : self.parsePrimaryExpression ch = .ok (p, after)) :
    Passes ch self after := by
  unfold parsePrimaryExpression at h
  split at h
  · split at h
    · exact parseIdentifier_passes h
    · exact parseNumber_passes h
    · cases h
  · cases h

section
variable {parseExpression : UInt8 → Parser ν → Except Error (Pointer × Parser ν)}
  (ih : ∀ precedence self p after, parseExpression precedence self = .ok (p, after) → Passes ch self after)
include ih

theorem parsePrefix_passes (h : self.parsePrefix ch parseExpression = .ok (p, after)) :
    Passes ch self after := by
  unfold parsePrefix at h
  split at h
  · split at h
    · exact parsePrimaryExpression_passes h
    · exact parsePrimaryExpression_passes h
    · split at h
      · cases h
      · next hopen =>
        split at h
        · cases h
        · next hexpr =>
          split at h <;> cases h
          next hclose =>
          have hopen := expectTokenType_passes (by decide) hopen
          have hclose := expectTokenType_passes (by decide) hclose
          exact hopen.trans ((ih _ _ _ _ hexpr).trans hclose)
    · cases h
  · cases h

theorem parseInfix_passes {left : Pointer} (h : self.parseInfix ch parseExpression left = .ok (p, after)) :
    Passes ch self after := by
  unfold parseInfix at h
  split at h
  · cases h
  · next hnext =>
    split at h
    · next htype =>
      split at h
      · dsimp only at h
        split at h <;> cases h
        next hexpr =>
        have hnext := next_passes_of_kind hnext (by rw [htype]; decide)
        exact (hnext.trans (ih _ _ _ _ hexpr)).pushNode _
      · cases h
    · cases h

theorem parseInfixes_passes {precedence : UInt8} {n : Nat} {left : Pointer}
    (h : self.parseInfixes ch parseExpression precedence n left = .ok (p, after)) :
    Passes ch self after := by
  induction n generalizing self left with
  | zero => cases h
  | succ n ihn =>
    unfold parseInfixes at h
    split at h
    · cases h
      exact .refl _
    · split at h
      · split at h
        · cases h
        · next hinfix => exact (parseInfix_passes ih hinfix).trans (ihn h)
      · cases h
        exact .refl _

end

theorem parseExpressionWithin_passes {n : Nat} {precedence : UInt8}
    (h : parseExpressionWithin ch n precedence self = .ok (p, after)) : Passes ch self after := by
  induction n generalizing self precedence p after with
  | zero => cases h
  | succ n ihn =>
    have ih : ∀ precedence self p after, parseExpressionWithin ch n precedence self = .ok (p, after) →
        Passes ch self after := fun _ _ _ _ h => ihn h
    unfold parseExpressionWithin at h
    split at h
    · cases h
    · next hprefix => exact (parsePrefix_passes ih hprefix).trans (parseInfixes_passes ih h)

theorem parseStatement_passes {node : Ast ν} (h : self.parseStatement ch = .ok (node, after)) :
    Passes ch self after := by
  unfold parseStatement at h
  split at h
  · cases h
  · next hvar =>
    split at h
    · next hword =>
      split at h
      · cases h
      · split at h
        · cases h
        · next hname =>
          split at h
          · cases h
          · next hequals =>
            split at h
            · cases h
            · next hsign =>
              split at h
              · cases h
              · next hvalue =>
                split at h <;> cases h
                next hend =>
                have hvar := next_passes_of_kind hvar (by rw [hword]; decide)
                have hsign := next_passes_of_text hequals (by simpa using hsign) (by decide)
                have hend := expectTokenType_passes (by decide) hend
                exact hvar.trans ((parseIdentifier_passes hname).trans
                  (hsign.trans ((parseExpressionWithin_passes hvalue).trans hend)))
    · cases h

/-- The statements are parsed past tokens with text, and no token is left. -/
theorem parseStatements_passes {n : Nat} {items nodes : List (Ast ν)}
    (h : parseStatements ch n items self = .ok (nodes, after)) :
    Passes ch self after ∧ after.peek ch = none := by
  induction n generalizing self items with
  | zero => cases h
  | succ n ih =>
    unfold parseStatements at h
    split at h
    · next hpeek =>
      cases h
      exact ⟨.refl _, hpeek⟩
    · split at h
      · cases h
      · next hstatement =>
        obtain ⟨hloop, hpeek⟩ := ih h
        exact ⟨(parseStatement_passes hstatement).trans hloop, hpeek⟩

end Parser
end CompilingToAssembly
