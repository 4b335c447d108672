import CompilingToAssembly.Library.Chain
import CompilingToAssembly.Parser.Printing
import CompilingToAssembly.Parser.Termination

/-! What `parseExpression` consumes, at every threshold.

From any state of the lexer the parser takes factors with operators between them for as
long as the operators bind tighter than the threshold, although turns of the loop and
recursive calls share them out (`Library.Chain`). The trees do not matter here; of the
states, what matters is which tokens calls of `next` return from them
(`parseExpression_consumes`). -/
namespace CompilingToAssembly
open Library Climb

/-- `f₁ op₁ f₂ … opₖ fₖ₊₁`: factors, and between them operators that bind tighter than the
threshold. -/
inductive FactorSequence (precedence : UInt8) : List Lexeme → Prop where
  | factor {u t} : Phrase .factor u t → FactorSequence precedence u
  | operator {u t op v} : Phrase .factor u t → arithmetic.contains op = true →
      precedence.toNat < binding op → FactorSequence precedence v →
      FactorSequence precedence (u ++ ⟨.Operator, op⟩ :: v)

/-! ### Sequences are chains -/

theorem operand_of_factor {u : List Lexeme} {t : Tree (List UInt8)} (h : Phrase .factor u t) :
    Operand (Descent.operators chapter08) u t := by
  cases h with
  | number => exact .leaf rfl
  | identifier => exact .leaf rfl
  | parens hu => exact .bracket rfl rfl rfl (derives_of_phrase hu)

theorem factor_of_operand {u : List Lexeme} {t : Tree (List UInt8)}
    (h : Operand (Descent.operators chapter08) u t) (hu : Lexical u) : Phrase .factor u t :=
  phrase_of_derives (h.derives 2) hu

/-- An operator that binds tighter than a threshold is one of the four. -/
theorem arithmetic_of_prec {l : Lexeme} (hl : inClass l.kind l.text = true) {p : Nat}
    (hp : p < (Descent.operators chapter08).prec l) :
    ∃ op, l = ⟨.Operator, op⟩ ∧ arithmetic.contains op = true ∧ p < binding op := by
  obtain ⟨op, rfl, hop⟩ := prec_cases hl (Nat.lt_of_le_of_lt (Nat.zero_le p) hp)
  have harith : arithmetic.contains op = true := by
    rcases hop with ⟨rfl | rfl, _⟩ | ⟨rfl | rfl, _⟩ <;> decide
  rw [prec_eq_binding harith] at hp
  exact ⟨op, rfl, harith, hp⟩

theorem chain_iff {precedence : UInt8} {u : List Lexeme} (hu : Lexical u) :
    Chain (Descent.operators chapter08) precedence.toNat u ↔ FactorSequence precedence u := by
  constructor
  · intro h
    induction h with
    | operand hoperand => exact .factor (factor_of_operand hoperand hu)
    | cons hoperand ht _ ih =>
      obtain ⟨hleft, hrest⟩ := hu.append
      obtain ⟨hclass, hright⟩ := hrest.cons
      obtain ⟨op, rfl, harith, hbinds⟩ := arithmetic_of_prec hclass ht
      exact .operator (factor_of_operand hoperand hleft) harith hbinds (ih hright)
  · intro h
    clear hu
    induction h with
    | factor hfactor => exact .operand (operand_of_factor hfactor)
    | operator hfactor harith hbinds _ ih =>
      rw [← prec_eq_binding harith] at hbinds
      exact .cons (operand_of_factor hfactor) hbinds ih

theorem FactorSequence.ne_nil {precedence : UInt8} {u : List Lexeme} (h : FactorSequence precedence u) :
    u ≠ [] := by
  cases h with
  | factor hfactor => exact (derives_of_phrase hfactor).ne_nil
  | operator => simp

/-! ### Calls of `next` -/

/-- The tokens that calls return are those read first, and behind them the rest is read. -/
theorem Lexer.reads_of_steps {self last : Lexer} {ts : List Token}
    (h : Steps (Lexer.next Chapter08.isNumeric) self ts last) {ls : List Lexeme}
    (hls : Reads Chapter08.isNumeric self.rest ls) :
    ∃ ls', ls = ts.map self.lexeme ++ ls' ∧ Reads Chapter08.isNumeric last.rest ls' := by
  induction h generalizing ls with
  | nil => exact ⟨ls, rfl, hls⟩
  | cons hnext _ ih =>
    obtain ⟨_, r, hr, rfl, rfl⟩ := next_ok hnext
    obtain ⟨ls', rfl, hls'⟩ := hls.of_read hr
    rw [← rest_after hr] at hls'
    obtain ⟨ls'', rfl, hls''⟩ := ih hls'
    refine ⟨ls'', ?_, hls''⟩
    rw [List.map_cons, lexeme_token hr, lexeme_after]
    rfl

theorem Lexer.steps_of_done {self last : Lexer} {ts : List Token} (hdone : self.done = true)
    (h : Steps (Lexer.next Chapter08.isNumeric) self ts last) : ts = [] := by
  cases h with
  | nil => rfl
  | cons hnext _ =>
    rw [(next_ok hnext).1] at hdone
    cases hdone

namespace Parser
variable {self : Parser (List UInt8)}

/-- `parseExpression` succeeds, and consumes the tokens. -/
def Parses (self : Parser (List UInt8)) (precedence : UInt8) (ts : List Token) : Prop :=
  ∃ p after, self.parseExpression chapter08 precedence = .ok (p, after) ∧ Consumes chapter08 self ts after

/-- The next token, if there is one, does not bind tighter than the threshold. -/
def Stops (self : Parser (List UInt8)) (precedence : UInt8) : Prop :=
  ∀ token, self.peek chapter08 = some token → (self.getPrecedence token).toU8 ≤ precedence

theorem stops_iff {precedence : UInt8} {ls : List Lexeme} (h : At chapter08 self ls) :
    self.Stops precedence ↔ top (Descent.operators chapter08) ls ≤ precedence.toNat := by
  unfold Stops
  cases ls with
  | nil =>
    rw [h.next_nil.2]
    simp
  | cons l ls =>
    obtain ⟨token, after, ht⟩ := h.takes
    rw [ht.peek]
    simp only [Option.some.injEq, forall_eq', ht.precedence]
    exact UInt8.le_iff_toNat_le

/-- A lexer that is `done` returns no token. -/
theorem parseExpression_done (precedence : UInt8) (h : self.lexer.done = true) :
    self.parseExpression chapter08 precedence = .error MissingToken := by
  have hpeek : self.peek chapter08 = none := by
    unfold peek Lexer.peek Lexer.next
    rw [if_pos h]
  unfold parseExpression budget parseExpressionWithin parsePrefix
  rw [hpeek]

end Parser

namespace At
variable {self after behind : Parser (List UInt8)} {precedence : UInt8} {ts : List Token} {p : Pointer}
  {ls rest : List Lexeme} (h : At chapter08 self ls)
include h

theorem of_consumes (hts : Parser.Consumes chapter08 self ts behind) :
    ∃ rest, ls = ts.map self.lexer.lexeme ++ rest ∧ At chapter08 behind rest := by
  obtain ⟨rest, hls, hreads⟩ := Lexer.reads_of_steps hts h.reads
  exact ⟨rest, hls, Lexer.steps_done hts h.done, hreads⟩

theorem length_lt_budget : ls.length < self.budget := by
  have hreads := h.reads.length_le
  rw [Lexer.rest, List.length_drop] at hreads
  unfold Parser.budget
  omega

/-- The parser fails as the climbing parser does, or succeeds with it and stands at what that
leaves. -/
theorem parse_cases (precedence : UInt8) :
    (∃ e, climb (Descent.operators chapter08) self.budget precedence.toNat ls = .error e ∧
      self.parseExpression chapter08 precedence = .error e) ∨
    ∃ t rest p after, climb (Descent.operators chapter08) self.budget precedence.toNat ls = .ok (t, rest) ∧
      self.parseExpression chapter08 precedence = .ok (p, after) ∧ At chapter08 after rest := by
  have hsim := parseExpression_simulates precedence h
  cases hc : climb (Descent.operators chapter08) self.budget precedence.toNat ls with
  | error e =>
    rw [hc] at hsim
    exact .inl ⟨e, rfl, hsim⟩
  | ok r =>
    obtain ⟨t, rest⟩ := r
    rw [hc] at hsim
    obtain ⟨p, after, hok, hat, _⟩ := hsim
    exact .inr ⟨t, rest, p, after, rfl, hok, hat⟩

theorem parse_ne_fuel : self.parseExpression chapter08 precedence ≠ .error .fuel := by
  intro hfuel
  rcases h.parse_cases precedence with ⟨e, hc, herror⟩ | ⟨_, _, _, _, _, hok, _⟩
  · rw [hfuel] at herror
    cases herror
    exact climb_fuel h.length_lt_budget hc
  · rw [hfuel] at hok
    cases hok

theorem climb_of_parse (hok : self.parseExpression chapter08 precedence = .ok (p, after)) :
    ∃ t rest, climb (Descent.operators chapter08) self.budget precedence.toNat ls = .ok (t, rest) ∧
      At chapter08 after rest := by
  rcases h.parse_cases precedence with ⟨e, _, herror⟩ | ⟨t, rest, _, _, hc, hok', hat⟩
  · rw [hok] at herror
    cases herror
  · rw [hok] at hok'
    cases hok'
    exact ⟨t, rest, hc, hat⟩

/-- What the climbing parser consumes is consumed by calls of `next`. -/
theorem parse_of_climb {t : Tree (List UInt8)}
    (hc : climb (Descent.operators chapter08) self.budget precedence.toNat ls = .ok (t, rest)) :
    ∃ ts, self.Parses precedence ts ∧ ls = ts.map self.lexer.lexeme ++ rest := by
  rcases h.parse_cases precedence with ⟨e, herror, _⟩ | ⟨_, _, p, after, hc', hok, hat⟩
  · rw [hc] at herror
    cases herror
  · rw [hc] at hc'
    cases hc'
    obtain ⟨ts, hts, _⟩ := Parser.parseExpressionWithin_passes hok
    obtain ⟨rest', hls, hat'⟩ := h.of_consumes hts
    rw [hat.reads.unique hat'.reads]
    exact ⟨ts, ⟨p, after, hok, hts⟩, hls⟩

/-- The segments that are consumed. -/
theorem parses_iff : self.Parses precedence ts ↔ ∃ behind, Parser.Consumes chapter08 self ts behind ∧
    FactorSequence precedence (ts.map self.lexer.lexeme) ∧ behind.Stops precedence := by
  have hlex : Lexical ls := reads_inClass h.reads
  have hn := h.length_lt_budget
  constructor
  · rintro ⟨p, after, hok, hts⟩
    obtain ⟨t, rest, hc, hat⟩ := h.climb_of_parse hok
    obtain ⟨rest', rfl, hat'⟩ := h.of_consumes hts
    rw [hat.reads.unique hat'.reads] at hc
    obtain ⟨hchain, htop⟩ := (climb_ok_iff hn).mp ⟨t, hc⟩
    exact ⟨after, hts, (chain_iff hlex.append.1).mp hchain, (Parser.stops_iff hat').mpr htop⟩
  · rintro ⟨behind, hts, hsequence, hstops⟩
    obtain ⟨rest, rfl, hat⟩ := h.of_consumes hts
    have hchain := (chain_iff hlex.append.1).mpr hsequence
    obtain ⟨t, hc⟩ := (climb_ok_iff hn).mpr ⟨hchain, (Parser.stops_iff hat).mp hstops⟩
    obtain ⟨ts', hparses, hls⟩ := h.parse_of_climb hc
    -- as many tokens are consumed as the segment has, so they are the same
    have hlen := congrArg List.length (List.append_cancel_right hls)
    rw [List.length_map, List.length_map] at hlen
    have ⟨_, _, _, hts'⟩ := hparses
    obtain ⟨more, rfl, _⟩ := hts.initial hts' (Nat.le_of_eq hlen)
    obtain rfl : more = [] := by simpa using hlen
    rw [List.append_nil] at hparses
    exact hparses

theorem parses_initial {higher : UInt8} (hle : precedence ≤ higher)
    (hok : self.parseExpression chapter08 precedence = .ok (p, after)) :
    ∃ ts ts', Parser.Consumes chapter08 self ts after ∧ self.Parses higher ts' ∧ ts' <+: ts := by
  obtain ⟨t, rest, hc, hat⟩ := h.climb_of_parse hok
  obtain ⟨t', w, hc'⟩ := climb_initial (UInt8.le_iff_toNat_le.mp hle) h.length_lt_budget hc
  obtain ⟨ts, hts, _⟩ := Parser.parseExpressionWithin_passes hok
  obtain ⟨rest', hls, hat'⟩ := h.of_consumes hts
  rw [hat'.reads.unique hat.reads] at hls
  obtain ⟨ts', hparses, hls'⟩ := h.parse_of_climb hc'
  have ⟨_, _, _, hts'⟩ := hparses
  have hlen : ts'.length ≤ ts.length := by
    have := congrArg List.length (hls.symm.trans hls')
    simp only [List.length_append, List.length_map] at this
    omega
  obtain ⟨more, rfl, _⟩ := hts'.initial hts hlen
  exact ⟨_, ts', hts, hparses, List.prefix_append ts' more⟩

end At

theorem Parser.at_or_done (self : Parser (List UInt8)) :
    self.lexer.done = true ∨ ∃ ls, At chapter08 self ls := by
  cases hdone : self.lexer.done with
  | true => exact .inl rfl
  | false =>
    obtain ⟨ls, hls⟩ := @exists_reads Chapter08.isNumeric self.lexer.rest
    exact .inr ⟨ls, hdone, hls⟩

/-- From any state `parseExpression` returns, and not for want of budget. -/
theorem Parser.parseExpression_returns (self : Parser (List UInt8)) (precedence : UInt8) :
    Returns (fun n => parseExpressionWithin chapter08 n precedence self)
      (self.parseExpression chapter08 precedence) := by
  have hfuel : self.parseExpression chapter08 precedence ≠ .error .fuel := by
    rcases self.at_or_done with hdone | ⟨ls, h⟩
    · rw [parseExpression_done precedence hdone]
      exact fun he => (nomatch he)
    · exact h.parse_ne_fuel
  exact ⟨hfuel, self.budget, fun n hn => parseExpressionWithin_extends hn precedence self hfuel⟩

/-- **What `parseExpression` consumes**, from every state and at every threshold. It returns;
it succeeds on exactly the sequences of factors whose operators bind tighter than the
threshold and behind which no token does; and at a higher threshold it succeeds where it
did, and consumes the beginning of the same tokens. -/
theorem parseExpression_consumes (self : Parser (List UInt8)) (precedence : UInt8) :
    Returns (fun n => Parser.parseExpressionWithin chapter08 n precedence self)
      (self.parseExpression chapter08 precedence) ∧
    (∀ ts, self.Parses precedence ts ↔ ∃ behind, Parser.Consumes chapter08 self ts behind ∧
      FactorSequence precedence (ts.map self.lexer.lexeme) ∧ behind.Stops precedence) ∧
    ∀ higher p after, precedence ≤ higher → self.parseExpression chapter08 precedence = .ok (p, after) →
      ∃ ts ts', Parser.Consumes chapter08 self ts after ∧ self.Parses higher ts' ∧ ts' <+: ts := by
  refine ⟨self.parseExpression_returns precedence, ?_⟩
  rcases self.at_or_done with hdone | ⟨ls, h⟩
  · have hfails := Parser.parseExpression_done precedence hdone
    refine ⟨fun ts => ⟨?_, ?_⟩, ?_⟩
    · rintro ⟨_, _, hok, _⟩
      rw [hfails] at hok
      cases hok
    · rintro ⟨behind, hts, hsequence, _⟩
      rw [Lexer.steps_of_done hdone hts] at hsequence
      exact absurd rfl hsequence.ne_nil
    · intro higher p after _ hok
      rw [hfails] at hok
      cases hok
  · exact ⟨fun ts => h.parses_iff, fun higher p after hle hok => h.parses_initial hle hok⟩

/-- `1 - 2 * 3`, above no operator and above sums. -/
theorem parseExpression_consumes_difference : ∃ p after ts ts',
    (Parser.init (ascii "1 - 2 * 3")).parseExpression chapter08 0 = .ok (p, after) ∧
      Parser.Consumes chapter08 (Parser.init (ascii "1 - 2 * 3")) ts after ∧
      Parser.Parses (Parser.init (ascii "1 - 2 * 3")) 1 ts' ∧ ts' <+: ts := by
  have hrun : ((Parser.init (ascii "1 - 2 * 3")).parseExpression chapter08 0).isOk = true := by decide +kernel
  cases h : (Parser.init (ascii "1 - 2 * 3")).parseExpression chapter08 0 with
  | error e => rw [h] at hrun; cases hrun
  | ok r =>
    obtain ⟨p, after⟩ := r
    obtain ⟨ts, ts', hts, hts', hinitial⟩ :=
      (parseExpression_consumes (Parser.init (ascii "1 - 2 * 3")) 0).2.2 1 p after (by decide) h
    exact ⟨p, after, ts, ts', rfl, hts, hts', hinitial⟩

end CompilingToAssembly
