import CompilingToAssembly.Parser.Consumption
import CompilingToAssembly.Parser.Diagnosis

/-! Which bytes of an accepted text the parser has looked at.

An accepted text has no token left, so the tokens consumed are all tokens, and what
lies in none of them is what the lexer's `else` arm skips: blanks, but also every
byte it has no other arm for, and a zero that no word runs into
(`parse_covers_iff`). -/
namespace CompilingToAssembly
open Library

/-! ### Classes by their bytes -/

/-- The bytes of operators and punctuation. -/
def isSymbol (c : UInt8) : Bool := (ascii "+-*/=<>!\x7b\x7d()[],;:").contains c

/-- The bytes of the lexical grammar. -/
def isLexical (c : UInt8) : Bool := isWordByte c || isSymbol c

theorem isSymbol_apart (c : UInt8) (h : isSymbol c = true) : isWordByte c = false := by
  have hall : ∀ c ∈ ascii "+-*/=<>!\x7b\x7d()[],;:", isWordByte c = false := by decide +kernel
  exact hall c (List.contains_iff_mem.mp h)

theorem isSymbol_of_prong (c : UInt8) :
    prong c = .skip ∨ prong c = .identifier ∨ prong c = .number ∨ isSymbol c = true :=
  forall_byte (P := fun c => prong c = .skip ∨ prong c = .identifier ∨ prong c = .number ∨ isSymbol c = true)
    (by decide +kernel) c

theorem isSymbol_single {c : UInt8} {kind : TokenType} (h : prong c = .single kind) : isSymbol c = true := by
  have := isSymbol_of_prong c
  rw [h] at this
  simpa using this

theorem isSymbol_operator {c : UInt8} {second : List UInt8} (h : prong c = .operator second) :
    isSymbol c = true := by
  have := isSymbol_of_prong c
  rw [h] at this
  simpa using this

/-- The texts of a class are made of word bytes, and the class takes digits, or of symbols. -/
theorem inClass_bytes {kind : TokenType} {text : List UInt8} (h : inClass kind text = true) :
    ((∀ b ∈ text, isWordByte b = true) ∧ ∀ b, isDigit b = true → inClass kind (text ++ [b]) = true) ∨
      ∀ b ∈ text, isSymbol b = true := by
  cases text with
  | nil => simp at h
  | cons c w =>
    rcases inClass_cons h with ⟨rfl, hp, hw⟩ | ⟨rfl, hp, hw⟩ | ⟨hp, rfl⟩ | ⟨rfl, second, hp, rfl | ⟨c2, hc2, rfl⟩⟩
    · have hc := (prong_identifier c).mp hp
      refine .inl ⟨List.forall_mem_cons.mpr ⟨isWordByte_of_start hc, List.all_eq_true.mp hw⟩, fun b hb => ?_⟩
      simp [inClass, hc, isWordByte, hb, hw]
    · have hc := (prong_number c).mp hp
      have hword {b : UInt8} (hb : isDigit b = true) : isWordByte b = true := by simp [isWordByte, hb]
      refine .inl ⟨List.forall_mem_cons.mpr ⟨hword (isDigit_of_nonzero c hc), fun b hb => ?_⟩, fun b hb => ?_⟩
      · exact hword (List.all_eq_true.mp hw b hb)
      · simp [inClass, hc, hb, hw]
    · exact .inr (List.forall_mem_singleton.mpr (isSymbol_single hp))
    · exact .inr (List.forall_mem_singleton.mpr (isSymbol_operator hp))
    · have hseconds : ∀ b ∈ seconds, isSymbol b = true := by decide +kernel
      refine .inr (List.forall_mem_cons.mpr ⟨isSymbol_operator hp, ?_⟩)
      exact List.forall_mem_singleton.mpr (hseconds c2 (second_mem_seconds hp hc2))

theorem isLexical_of_inClass {kind : TokenType} {text : List UInt8} (h : inClass kind text = true)
    {b : UInt8} (hb : b ∈ text) : isLexical b = true := by
  rcases inClass_bytes h with ⟨hall, _⟩ | hall <;> simp [isLexical, hall b hb]

/-- A text with a word byte in it is a word. -/
theorem word_of_mem {kind : TokenType} {text : List UInt8} (h : inClass kind text = true) {b : UInt8}
    (hb : b ∈ text) (hword : isWordByte b = true) :
    (∀ b ∈ text, isWordByte b = true) ∧ ∀ b, isDigit b = true → inClass kind (text ++ [b]) = true := by
  rcases inClass_bytes h with hall | hall
  · exact hall
  · rw [isSymbol_apart b (hall b hb)] at hword
    cases hword

/-- Every byte of the lexical grammar but the zero is a token's first. -/
theorem exists_inClass {c : UInt8} (h : isLexical c = true) (hzero : c ≠ byte '0') :
    ∃ kind, inClass kind [c] = true := by
  have hskip : prong c ≠ .skip :=
    forall_byte (P := fun c => isLexical c = true → c ≠ byte '0' → prong c ≠ .skip)
      (by decide +kernel) c h hzero
  cases hp : prong c with
  | skip => exact absurd hp hskip
  | identifier => exact ⟨.Identifier, by simp [inClass, (prong_identifier c).mp hp]⟩
  | number => exact ⟨.Number, by simp [inClass, (prong_number c).mp hp]⟩
  | single kind => exact ⟨kind, (prong_single c kind hp).1⟩
  | operator second => exact ⟨.Operator, (prong_operator c second hp).1⟩

theorem not_inClass_zero (kind : TokenType) (w : List UInt8) : inClass kind (byte '0' :: w) = false := by
  cases h : inClass kind (byte '0' :: w) with
  | false => rfl
  | true => exact absurd (by decide +kernel) (prong_of_inClass h)

/-! ### Spans -/

theorem mem_span {input : List UInt8} {start finish i : Nat} {b : UInt8} (hb : input[i]? = some b)
    (hstart : start ≤ i) (hfinish : i < finish) : b ∈ span input start finish := by
  apply List.mem_of_getElem? (i := i - start)
  rw [span, List.getElem?_take_of_lt (by omega), List.getElem?_drop, Nat.add_sub_cancel' hstart]
  exact hb

theorem span_succ {input : List UInt8} {start i : Nat} {b : UInt8} (hb : input[i]? = some b)
    (hstart : start ≤ i) : span input start (i + 1) = span input start i ++ [b] := by
  rw [span, Nat.succ_sub hstart, List.take_add_one, List.getElem?_drop, Nat.add_sub_cancel' hstart, hb]
  rfl

theorem span_cons {input : List UInt8} {i finish : Nat} {b : UInt8} (hb : input[i]? = some b)
    (hfinish : i < finish) : span input i finish = b :: span input (i + 1) finish := by
  obtain ⟨hlt, hget⟩ := List.getElem?_eq_some_iff.mp hb
  have hlen : finish - i = finish - (i + 1) + 1 := by omega
  rw [span, List.drop_eq_getElem_cons hlt, hget, hlen, List.take_succ_cons]
  rfl

/-- The byte at `i` lies inside the token. -/
def Token.Covers (t : Token) (i : Nat) : Prop := t.start ≤ i ∧ i < t.finish

/-- Space, tab, carriage return and newline. -/
def isBlank (c : UInt8) : Bool := (ascii " \t\r\n").contains c

/-- Every byte that is no blank lies inside exactly one of the tokens. -/
def Covered (input : List UInt8) (ts : List Token) : Prop :=
  ∀ i b, input[i]? = some b → isBlank b = false → ∃! t, t ∈ ts ∧ t.Covers i

/-- Nothing but blanks stands outside the lexical grammar, and every zero follows a
letter, a digit or an underscore. -/
structure AsWritten (input : List UInt8) : Prop where
  lexical : ∀ b ∈ input, isBlank b = true ∨ isLexical b = true
  zeros : ∀ i, input[i]? = some (byte '0') → ∃ j c, i = j + 1 ∧ input[j]? = some c ∧ isWordByte c = true

/-- `AsWritten` as a test. -/
def isAsWritten (input : List UInt8) : Bool :=
  input.all (fun b => isBlank b || isLexical b) &&
    (List.range input.length).all fun i =>
      input[i]? != some (byte '0') || (i != 0 && input[i - 1]?.any isWordByte)

theorem isAsWritten_iff {input : List UInt8} : isAsWritten input = true ↔ AsWritten input := by
  simp only [isAsWritten, Bool.and_eq_true, List.all_eq_true, List.mem_range, Bool.or_eq_true, bne_iff_ne]
  constructor
  · rintro ⟨hlex, hzeros⟩
    refine ⟨hlex, fun i hi => ?_⟩
    obtain ⟨hlt, _⟩ := List.getElem?_eq_some_iff.mp hi
    obtain ⟨hne, hany⟩ := (hzeros i hlt).resolve_left fun h => h hi
    obtain ⟨c, hc, hword⟩ := (Option.any_eq_true _ _).mp hany
    exact ⟨i - 1, c, by omega, hc, hword⟩
  · intro h
    refine ⟨h.lexical, fun i _ => ?_⟩
    by_cases hi : input[i]? = some (byte '0')
    · obtain ⟨j, c, rfl, hc, hword⟩ := h.zeros i hi
      exact Or.inr ⟨Nat.succ_ne_zero j, by simp [hc, hword]⟩
    · exact Or.inl hi

instance (input : List UInt8) : Decidable (AsWritten input) := decidable_of_iff _ isAsWritten_iff

namespace Tokenisation
variable {input : List UInt8} {ts : List Token}

/-- Tokens do not overlap. -/
theorem eq_of_covers (h : Tokenisation input 0 ts) {t t' : Token} {i : Nat} (ht : t ∈ ts) (ht' : t' ∈ ts)
    (hi : t.Covers i) (hi' : t'.Covers i) : t = t' := by
  have hpairs : ts.Pairwise fun a b => a.Covers i → b.Covers i → a = b := by
    refine h.ordered.imp fun {a b} hab ha hb => ?_
    have := ha.2
    have := hb.1
    omega
  have : Std.Symm fun a b : Token => a.Covers i → b.Covers i → a = b :=
    ⟨fun _ _ hab hb ha => (hab ha hb).symm⟩
  exact hpairs.forall_of_forall (fun _ _ _ _ => rfl) ht ht' hi hi'

/-- A byte that could start a token lies inside one. -/
theorem exists_covers (h : Tokenisation input 0 ts) {i : Nat} {b : UInt8} (hb : input[i]? = some b)
    {kind : TokenType} {w : List UInt8} (hin : inClass kind (b :: w) = true) : ∃ t ∈ ts, t.Covers i := by
  by_contra hnone
  have := h.gaps i b (Nat.zero_le _) hb (fun t ht hi => hnone ⟨t, ht, hi⟩) kind w
  rw [hin] at this
  cases this

/-- A word runs on into a zero. -/
theorem covers_zero (h : Tokenisation input 0 ts) {t : Token} (ht : t ∈ ts) {j : Nat} (hj : t.Covers j)
    {c : UInt8} (hc : input[j]? = some c) (hword : isWordByte c = true)
    (hzero : input[j + 1]? = some (byte '0')) : t.Covers (j + 1) := by
  refine ⟨Nat.le_succ_of_le hj.1, ?_⟩
  by_contra hend
  have hfinish : t.finish = j + 1 := by
    have := hj.2
    omega
  have hclass := h.classified t ht
  have hlonger := (word_of_mem hclass (mem_span hc hj.1 hj.2) hword).2 (byte '0') (by decide)
  rw [hfinish, ← span_succ hzero (Nat.le_succ_of_le hj.1)] at hlonger
  obtain ⟨hlt, _⟩ := List.getElem?_eq_some_iff.mp hzero
  have := h.maximal t ht (j + 1 + 1) (by omega) hlt t.tokenType
  rw [hlonger] at this
  cases this

theorem covers_of_asWritten (h : Tokenisation input 0 ts) (hw : AsWritten input) {i : Nat} {b : UInt8}
    (hb : input[i]? = some b) (hblank : isBlank b = false) : ∃ t ∈ ts, t.Covers i := by
  induction i generalizing b with
  | zero =>
    have hzero : b ≠ byte '0' := by
      rintro rfl
      obtain ⟨j, c, hj, _⟩ := hw.zeros 0 hb
      cases hj
    have hlex := (hw.lexical b (List.mem_of_getElem? hb)).resolve_left (by simp [hblank])
    obtain ⟨kind, hkind⟩ := exists_inClass hlex hzero
    exact h.exists_covers hb hkind
  | succ j ih =>
    by_cases hzero : b = byte '0'
    · subst hzero
      obtain ⟨j', c, hj, hc, hword⟩ := hw.zeros _ hb
      obtain rfl := Nat.succ.inj hj
      have hc' : isBlank c = false :=
        forall_byte (P := fun c => isWordByte c = true → isBlank c = false) (by decide +kernel) c hword
      obtain ⟨t, ht, hcovers⟩ := ih hc hc'
      exact ⟨t, ht, h.covers_zero ht hcovers hc hword hb⟩
    · have hlex := (hw.lexical b (List.mem_of_getElem? hb)).resolve_left (by simp [hblank])
      obtain ⟨kind, hkind⟩ := exists_inClass hlex hzero
      exact h.exists_covers hb hkind

theorem asWritten_of_covered (h : Tokenisation input 0 ts) (hc : Covered input ts) : AsWritten input := by
  constructor
  · intro b hb
    obtain ⟨i, hi⟩ := List.mem_iff_getElem?.mp hb
    cases hblank : isBlank b with
    | true => exact .inl rfl
    | false =>
      obtain ⟨t, ⟨ht, hcov⟩, _⟩ := hc i b hi hblank
      exact .inr (isLexical_of_inClass (h.classified t ht) (mem_span hi hcov.1 hcov.2))
  · intro i hi
    obtain ⟨t, ⟨ht, hcov⟩, _⟩ := hc i _ hi (by decide)
    have hclass := h.classified t ht
    have hword := (word_of_mem hclass (mem_span hi hcov.1 hcov.2) (by decide)).1
    have hstart : t.start ≠ i := by
      intro he
      rw [he, span_cons hi hcov.2, not_inClass_zero] at hclass
      cases hclass
    have hj : i - 1 < input.length := by
      obtain ⟨hlt, _⟩ := List.getElem?_eq_some_iff.mp hi
      omega
    have hcj : input[i - 1]? = some input[i - 1] := List.getElem?_eq_getElem hj
    have := hcov.1
    refine ⟨i - 1, _, by omega, hcj, hword _ (mem_span hcj (by omega) ?_)⟩
    have := hcov.2
    omega

theorem covered_iff (h : Tokenisation input 0 ts) : Covered input ts ↔ AsWritten input := by
  refine ⟨h.asWritten_of_covered, fun hw i b hb hblank => ?_⟩
  obtain ⟨t, ht, hcov⟩ := h.covers_of_asWritten hw hb hblank
  exact ⟨t, ⟨ht, hcov⟩, fun t' ht' => h.eq_of_covers ht'.1 ht ht'.2 hcov⟩

end Tokenisation

/-! ### Accepted texts -/

theorem Lexer.yields_of_steps {isNumeric : UInt8 → Bool} {self last : Lexer} {ts : List Token}
    (h : Steps (Lexer.next isNumeric) self ts last) (hlast : last.next isNumeric = .error MissingToken) :
    self.Yields isNumeric ts := by
  induction h with
  | nil => exact .missing hlast
  | cons hnext _ ih => exact .token hnext (ih hlast)

/-- Where nothing can be peeked at, `next` fails. -/
theorem Lexer.next_of_peek {isNumeric : UInt8 → Bool} {self : Lexer} (hdone : self.done = false)
    (h : self.peek isNumeric = none) : self.next isNumeric = .error MissingToken := by
  rw [peek_read self hdone, Option.map_eq_none_iff] at h
  exact next_of_none hdone h

/-- An accepted text is consumed by calls of `next`, and behind it `next` fails. -/
theorem Chapter08.parse_consumes {input : List UInt8} {p : Pointer} {after : Parser (List UInt8)}
    (h : parse (Parser.init input) = .ok (p, after)) :
    (∃ ts, Parser.Consumes chapter08 (Parser.init input) ts after) ∧
      after.lexer.next Chapter08.isNumeric = .error MissingToken := by
  rw [parse_eq] at h
  split at h
  · cases h
  · next hstatements =>
    cases h
    obtain ⟨⟨ts, hts, _⟩, hpeek⟩ := Parser.parseStatements_passes hstatements
    refine ⟨⟨ts, hts⟩, ?_⟩
    exact Lexer.next_of_peek (Lexer.steps_done hts rfl) hpeek

/-- The tokens consumed of an accepted text are one list, and it is the tokenisation. -/
theorem Chapter08.parse_tokenisation {input : List UInt8} {p : Pointer} {after : Parser (List UInt8)}
    (h : parse (Parser.init input) = .ok (p, after)) :
    ∃ ts, Parser.Consumes chapter08 (Parser.init input) ts after ∧
      (∀ ts', Parser.Consumes chapter08 (Parser.init input) ts' after → ts' = ts) ∧
      Tokenisation input 0 ts := by
  obtain ⟨⟨ts, hts⟩, hend⟩ := parse_consumes h
  refine ⟨ts, hts, fun ts' hts' => (hts'.unique hend hts hend).1, ?_⟩
  exact yields_tokenisation (Lexer.yields_of_steps hts hend) rfl

/-- **An accepted text is accepted as written iff it holds nothing the lexer skips but
blanks.** The tokens the parser consumed are one list, and it covers the text iff every
byte that is no blank is one of the lexical grammar and no zero stands where a number
would start. -/
theorem parse_covers_iff {input : List UInt8} {p : Pointer} {after : Parser (List UInt8)}
    (h : Chapter08.parse (Parser.init input) = .ok (p, after)) :
    ∃ ts, Parser.Consumes chapter08 (Parser.init input) ts after ∧
      (∀ ts', Parser.Consumes chapter08 (Parser.init input) ts' after → ts' = ts) ∧
      (Covered input ts ↔ AsWritten input) := by
  obtain ⟨ts, hts, hunique, htokens⟩ := Chapter08.parse_tokenisation h
  exact ⟨ts, hts, hunique, htokens.covered_iff⟩

theorem parse_covers_sum : ∃ p after ts,
    Chapter08.parse (Parser.init (ascii "var x = 10 + y0;")) = .ok (p, after) ∧
      Parser.Consumes chapter08 (Parser.init (ascii "var x = 10 + y0;")) ts after ∧
      Covered (ascii "var x = 10 + y0;") ts := by
  obtain ⟨p, after, h⟩ := Chapter08.exists_parse (ascii "var x = 10 + y0;") (by decide +kernel)
  obtain ⟨ts, hts, _, hiff⟩ := parse_covers_iff h
  exact ⟨p, after, ts, h, hts, hiff.mpr (by decide +kernel)⟩

/-- `var x = 01;` is accepted, and its zero lies in no token. -/
theorem leading_zero_uncovered : ∃ p after ts,
    Chapter08.parse (Parser.init (ascii "var x = 01;")) = .ok (p, after) ∧
      Parser.Consumes chapter08 (Parser.init (ascii "var x = 01;")) ts after ∧
      ¬ Covered (ascii "var x = 01;") ts := by
  obtain ⟨p, after, h⟩ := Chapter08.exists_parse (ascii "var x = 01;") (by decide +kernel)
  obtain ⟨ts, hts, _, htokens⟩ := Chapter08.parse_tokenisation h
  refine ⟨p, after, ts, h, hts, fun hc => ?_⟩
  exact absurd (htokens.asWritten_of_covered hc) (by decide +kernel)

end CompilingToAssembly
