import CompilingToAssembly.Parser.Coverage
import CompilingToAssembly.Parser.Printing

/-! A blank is a token boundary and nothing else.

With their positions, the tokens of two texts with a blank between them are those of
the one followed by those of the other, moved (`tokensOf_blank`). What the parser
returns depends on the tokens only, so blanks can be put in and taken out where a
blank remains, or where not both neighbours are bytes of words. There taking the last
one out may glue two operators into one; but no program has adjacent operators or one
of two bytes, so such a text was rejected and still is (`blank_is_boundary`). -/
namespace CompilingToAssembly
open Library

/-! ### Positions -/

/-- The tokens of an input, with their spans. -/
def tokensOf (input : List UInt8) : List Token :=
  (Lexer.init input).tokens Chapter08.isNumeric (input.length + 1)

def Token.shift (n : Nat) (t : Token) : Token := { t with start := t.start + n, finish := t.finish + n }

/-- The tokens read from `bytes`, the first of which is at position `i`. -/
inductive ReadsAt : Nat → List UInt8 → List Token → Prop where
  | done {i bytes} : read Chapter08.isNumeric bytes = none → ReadsAt i bytes []
  | step {i bytes r ts} : read Chapter08.isNumeric bytes = some r →
      ReadsAt (i + r.skipped.length + r.lexeme.text.length) r.rest ts →
      ReadsAt i bytes
        (⟨r.lexeme.kind, i + r.skipped.length, i + r.skipped.length + r.lexeme.text.length⟩ :: ts)

theorem readsAt_of_yields {self : Lexer} {ts : List Token} (h : self.Yields Chapter08.isNumeric ts)
    (hdone : self.done = false) : ReadsAt self.index self.rest ts := by
  induction h with
  | missing hnext => exact .done (Lexer.next_error hdone hnext).2
  | @token self after t ts hnext _ ih =>
    obtain ⟨_, r, hr, rfl, rfl⟩ := Lexer.next_ok hnext
    have hrest := ih hdone
    rw [Lexer.rest_after hr, Lexer.index_after] at hrest
    exact .step hr hrest

theorem readsAt_tokensOf (input : List UInt8) : ReadsAt 0 input (tokensOf input) :=
  readsAt_of_yields (yields_tokens input) rfl

namespace ReadsAt
variable {i : Nat} {bytes more : List UInt8} {ts us : List Token}

theorem unique (h : ReadsAt i bytes ts) (h' : ReadsAt i bytes us) : ts = us := by
  induction h generalizing us with
  | done hr =>
    cases h' with
    | done _ => rfl
    | step hr' _ => rw [hr] at hr'; cases hr'
  | step hr _ ih =>
    cases h' with
    | done hr' => rw [hr] at hr'; cases hr'
    | step hr' h' =>
      rw [hr] at hr'
      cases hr'
      rw [ih h']

theorem shift (h : ReadsAt i bytes ts) (n : Nat) : ReadsAt (i + n) bytes (ts.map (Token.shift n)) := by
  induction h with
  | done hr => exact .done hr
  | @step i bytes r ts hr _ ih =>
    have hstart : i + r.skipped.length + n = i + n + r.skipped.length := by omega
    have hfinish : i + r.skipped.length + r.lexeme.text.length + n =
        i + n + r.skipped.length + r.lexeme.text.length := by omega
    rw [hfinish] at ih
    simp only [List.map_cons, Token.shift, hstart, hfinish]
    exact .step hr ih

theorem skip {skipped : List UInt8} (hskip : ∀ b ∈ skipped, prong b = .skip)
    (h : ReadsAt (i + skipped.length) bytes ts) : ReadsAt i (skipped ++ bytes) ts := by
  have hread := @read_skip Chapter08.isNumeric _ bytes hskip
  cases h with
  | done hr => exact .done (by rw [hread, hr]; rfl)
  | @step _ _ r ts hr h =>
    have hr' : read Chapter08.isNumeric (skipped ++ bytes) = some { r with skipped := skipped ++ r.skipped } := by
      rw [hread, hr]
      rfl
    have hlen : i + skipped.length + r.skipped.length = i + (skipped ++ r.skipped).length := by
      rw [List.length_append, Nat.add_assoc]
    rw [hlen] at h ⊢
    exact .step hr' h

/-- Text behind that glues to no token leaves the tokens as they are. -/
theorem append (h : ReadsAt i bytes ts) (h' : ReadsAt (i + bytes.length) more us)
    (hstop : ∀ l, inClass l.kind l.text = true → ∀ b ∈ more.head?, ¬ Glues l b) :
    ReadsAt i (bytes ++ more) (ts ++ us) := by
  induction h with
  | done hr => exact h'.skip (read_eq_none.mp hr)
  | @step i bytes r ts hr _ ih =>
    have hlen := congrArg List.length (read_append hr)
    simp only [List.length_append] at hlen
    refine .step (r := { r with rest := r.rest ++ more })
      (read_extend hr fun _ => hstop r.lexeme (read_inClass hr)) (ih ?_)
    rw [hlen] at h'
    simpa only [Nat.add_assoc] using h'

end ReadsAt

/-- **With their positions, the tokens around a blank are those of its two sides.** -/
theorem tokensOf_blank (s₁ s₂ : List UInt8) {w : UInt8} (hw : isWhitespace w = true) :
    tokensOf (s₁ ++ w :: s₂) = tokensOf s₁ ++ (tokensOf s₂).map (Token.shift (s₁.length + 1)) := by
  apply (readsAt_tokensOf _).unique
  apply (readsAt_tokensOf s₁).append
  · have hshift := (readsAt_tokensOf s₂).shift (s₁.length + 1)
    rw [Nat.zero_add] at hshift ⊢
    have hskip : ∀ b ∈ [w], prong b = .skip := List.forall_mem_singleton.mpr (whitespace_apart w hw).1
    exact hshift.skip hskip
  · intro l hl b hb
    obtain rfl : w = b := Option.some.inj hb
    exact not_glues_whitespace hl hw

/-! ### Operators side by side -/

/-- An input whose tokens begin a program has no adjacent operators and none of two bytes. -/
theorem invalid_of_operators {input : List UInt8}
    (h : (∃ l ∈ lexemes input, l.kind = .Operator ∧ l.text.length ≠ 1) ∨ ¬ OperatorsApart (lexemes input)) :
    Chapter08.parse (Parser.init input) = .error InvalidToken := by
  refine Chapter08.parse_invalid_iff.mpr fun other hother hbegins => ?_
  obtain ⟨ss, hss⟩ := Chapter08.accepts_iff.mp hother
  have halt := ((prog_iff (lexical_lexemes other)).mpr hss).alternates
  rcases h with ⟨l, hl, hop, hlen⟩ | happart
  · exact hlen (halt.single l (hbegins.subset hl) hop)
  · obtain ⟨more, hmore⟩ := hbegins
    have := halt.apart
    rw [← hmore] at this
    exact happart (List.isChain_append.mp this).1

/-! ### Across a seam without a blank -/

/-- An operator's second byte is an operator's first. -/
theorem reads_second {c : UInt8} (hc : c ∈ seconds) {more : List UInt8} {ls : List Lexeme}
    (h : Reads Chapter08.isNumeric (c :: more) ls) : ∃ l ls', ls = l :: ls' ∧ l.kind = .Operator := by
  have hseconds : ∀ c ∈ seconds, prong c ≠ .skip := by decide +kernel
  have hskip := hseconds c hc
  cases hf : first Chapter08.isNumeric c more with
  | none => exact absurd (first_eq_none.mp hf) hskip
  | some r =>
    obtain ⟨l, rest⟩ := r
    have hr : read Chapter08.isNumeric (c :: more) = some ⟨[], l, rest⟩ :=
      read_of_first skip_nothing hf
    have hhead : l.text.head? = some c := by
      have happend := first_append hf
      cases htext : l.text with
      | nil => exact absurd htext (first_ne_nil hf)
      | cons d w =>
        rw [htext] at happend
        rw [(List.cons.inj happend).1]
        rfl
    obtain ⟨ls', hls, _⟩ := h.of_read hr
    exact ⟨l, ls', hls, (head_class (read_inClass hr) hhead).2 hc⟩

/-- No operator has three bytes. -/
theorem operator_length {text : List UInt8} (h : inClass .Operator text = true) : text.length ≤ 2 := by
  have htable : ∀ text ∈ operators, text.length ≤ 2 := by decide +kernel
  exact htable text (List.contains_iff_mem.mp h)

/-- Where a byte glues to an operator, the two are read as one. -/
theorem read_glued {bytes more : List UInt8} {r : Reading} {c : UInt8}
    (hr : read Chapter08.isNumeric bytes = some r) (hrest : r.rest = []) (hkind : r.lexeme.kind = .Operator)
    (hglue : Glues r.lexeme c) : read Chapter08.isNumeric (bytes ++ c :: more) =
      some ⟨r.skipped, ⟨.Operator, r.lexeme.text ++ [c]⟩, more⟩ := by
  have hbytes := read_append hr
  have hlen := List.length_pos_iff.mpr (read_ne_nil hr)
  obtain ⟨hskip, _⟩ := read_eq_some hr
  rw [Glues, hkind] at hglue
  rw [hbytes, hrest, List.append_nil, List.append_assoc, ← List.singleton_append, ← List.append_assoc r.lexeme.text]
  refine read_cons (l := ⟨.Operator, r.lexeme.text ++ [c]⟩) hskip hglue fun b _ hmore => ?_
  have := operator_length hmore
  simp only [List.length_append, List.length_singleton] at this
  omega

/-- A word that takes another byte ends in a word byte. -/
theorem word_last {l : Lexeme} {c : UInt8} (hne : l.text ≠ []) (hglue : Glues l c) (hc : isWordByte c = true) :
    ∃ x ∈ l.text.getLast?, isWordByte x = true := by
  have hall := (word_of_mem hglue (List.mem_append_right _ (List.mem_singleton_self c)) hc).1
  refine ⟨l.text.getLast hne, List.getLast?_eq_some_getLast hne, ?_⟩
  exact hall _ (List.mem_append_left _ (List.getLast_mem hne))

/-- What can happen to the tokens of two texts at their seam: nothing, or a word takes a
word byte, or an operator takes another. -/
theorem reads_seam {bytes more : List UInt8} {c : UInt8} {ls ls' ms : List Lexeme}
    (h : Reads Chapter08.isNumeric bytes ls) (h' : Reads Chapter08.isNumeric (c :: more) ls')
    (hms : Reads Chapter08.isNumeric (bytes ++ c :: more) ms) :
    ms = ls ++ ls' ∨ (isWordByte c = true ∧ ∃ x ∈ bytes.getLast?, isWordByte x = true) ∨
      ((∃ g ∈ ms, g.kind = .Operator ∧ g.text.length ≠ 1) ∧ ¬ OperatorsApart (ls ++ ls')) := by
  induction h generalizing ms with
  | done hr => exact .inl (hms.unique (h'.skip (read_eq_none.mp hr)))
  | @step bytes r ls hr hne hls ih =>
    by_cases hrest : r.rest = []
    · -- The token of `r` ends the first text, and `c` comes right behind it.
      obtain rfl : ls = [] := by
        rw [hrest] at hls
        exact hls.unique (.done rfl)
      by_cases hglue : Glues r.lexeme c
      · rcases glue_cases (read_inClass hr) hglue with ⟨_, hc⟩ | ⟨hkind, hc⟩
        · obtain ⟨x, hx, hword⟩ := word_last hne hglue hc
          refine .inr (.inl ⟨hc, x, ?_, hword⟩)
          rw [read_append hr, hrest, List.append_nil, List.getLast?_append_of_ne_nil _ hne]
          exact hx
        · obtain ⟨ms', rfl, _⟩ := hms.of_read (read_glued hr hrest hkind hglue)
          obtain ⟨l, ls', rfl, hop⟩ := reads_second hc h'
          refine .inr (.inr ⟨⟨_, List.mem_cons_self .., rfl, ?_⟩, fun happart => ?_⟩)
          · simp [hne]
          · exact (List.isChain_cons_cons.mp happart).1 hkind hop
      · obtain ⟨ms', rfl, hms'⟩ := hms.of_read (read_extend hr fun _ b hb => by
          cases hb
          exact hglue)
        simp only [hrest, List.nil_append] at hms'
        exact .inl (by rw [hms'.unique h']; rfl)
    · obtain ⟨ms', rfl, hms'⟩ := hms.of_read (read_extend hr fun hnil => absurd hnil hrest)
      rcases ih hms' with heq | ⟨hc, x, hx, hword⟩ | ⟨⟨g, hg, hgop⟩, happart⟩
      · exact .inl (by rw [heq]; rfl)
      · refine .inr (.inl ⟨hc, x, ?_, hword⟩)
        rw [read_append hr, ← List.append_assoc, List.getLast?_append_of_ne_nil _ hrest]
        exact hx
      · exact .inr (.inr ⟨⟨g, List.mem_cons_of_mem _ hg, hgop⟩, fun h => happart h.tail⟩)
  | stuck hr he => exact absurd he (read_ne_nil hr)

/-! ### What the parser returns -/

/-- The parser fails on both inputs with the same error, or returns the same statements. -/
structure SameParse (input other : List UInt8) : Prop where
  error : ∀ e, Chapter08.parse (Parser.init input) = .error e ↔ Chapter08.parse (Parser.init other) = .error e
  block : ∀ root self root' self', Chapter08.parse (Parser.init input) = .ok (root, self) →
    Chapter08.parse (Parser.init other) = .ok (root', self') →
    ∃ ss, IsBlock self.nodes root ss ∧ IsBlock self'.nodes root' ss

theorem SameParse.symm {input other : List UInt8} (h : SameParse input other) : SameParse other input where
  error e := (h.error e).symm
  block root self root' self' hok hok' := by
    obtain ⟨ss, hss, hss'⟩ := h.block root' self' root self hok' hok
    exact ⟨ss, hss', hss⟩

theorem SameParse.trans {input other third : List UInt8} (h : SameParse input other) (h' : SameParse other third) :
    SameParse input third where
  error e := (h.error e).trans (h'.error e)
  block root self root' self' hok hok' := by
    cases hother : Chapter08.parse (Parser.init other) with
    | error e =>
      rw [(h.error e).mpr hother] at hok
      cases hok
    | ok r =>
      obtain ⟨ss, hss, hmid⟩ := h.block root self r.1 r.2 hok hother
      obtain ⟨ss', hmid', hss'⟩ := h'.block r.1 r.2 root' self' hother hok'
      obtain rfl := hmid.unique hmid'
      exact ⟨ss, hss, hss'⟩

theorem parse_error_of_lexemes {input other : List UInt8} (h : lexemes input = lexemes other) {e : Error}
    (he : Chapter08.parse (Parser.init input) = .error e) :
    Chapter08.parse (Parser.init other) = .error e := by
  have haccepts : Chapter08.Accepts input ↔ Chapter08.Accepts other := by
    rw [Chapter08.accepts_iff, Chapter08.accepts_iff, h]
  rcases Chapter08.parse_cases input with ⟨root, self, hok⟩ | hmissing | hinvalid
  · rw [he] at hok
    cases hok
  · rw [hmissing] at he
    cases he
    have := Chapter08.parse_missing_iff.mp hmissing
    rw [haccepts, h] at this
    exact Chapter08.parse_missing_iff.mpr this
  · rw [hinvalid] at he
    cases he
    have := Chapter08.parse_invalid_iff.mp hinvalid
    rw [h] at this
    exact Chapter08.parse_invalid_iff.mpr this

/-- **What the parser returns depends on the tokens only.** -/
theorem sameParse_of_lexemes {input other : List UInt8} (h : lexemes input = lexemes other) :
    SameParse input other where
  error _ := ⟨parse_error_of_lexemes h, parse_error_of_lexemes h.symm⟩
  block root self root' self' hok hok' := by
    obtain ⟨ss, items, after, hss, hroot, hbuilt⟩ := Chapter08.program_of_parse hok
    obtain ⟨ss', items', after', hss', hroot', hbuilt'⟩ := Chapter08.program_of_parse hok'
    rw [h] at hss
    obtain rfl := hss.unique hss'
    cases hroot
    cases hroot'
    exact ⟨ss, Chapter08.isBlock_pushNode hbuilt, Chapter08.isBlock_pushNode hbuilt'⟩

theorem sameParse_of_invalid {input other : List UInt8}
    (h : Chapter08.parse (Parser.init input) = .error InvalidToken)
    (h' : Chapter08.parse (Parser.init other) = .error InvalidToken) : SameParse input other where
  error _ := by rw [h, h']
  block _ _ _ _ hok := by rw [h] at hok; cases hok

/-! ### Blanks -/

/-- The one text ends and the other begins with a letter, a digit or an underscore. -/
def WordsMeet (s₁ s₂ : List UInt8) : Prop :=
  ∃ x ∈ s₁.getLast?, ∃ y ∈ s₂.head?, isWordByte x = true ∧ isWordByte y = true

section
variable {s₁ s₂ gap gap' : List UInt8}

/-- Blanks separate the tokens before from the tokens behind. -/
theorem lexemes_blanks (hgap : ∀ b ∈ gap, isWhitespace b = true) (hne : gap ≠ []) :
    lexemes (s₁ ++ (gap ++ s₂)) = lexemes s₁ ++ lexemes s₂ := by
  have hskip : lexemes (gap ++ s₂) = lexemes s₂ :=
    lexemes_eq ((reads_lexemes s₂).skip fun b hb => (whitespace_apart b (hgap b hb)).1)
  rw [lexemes_append, hskip]
  intro l hl b hb
  cases gap with
  | nil => exact absurd rfl hne
  | cons w gap =>
    cases hb
    exact not_glues_whitespace (lexical_lexemes s₁ l (List.mem_of_getLast? hl)) (hgap b (List.mem_cons_self ..))

/-- Blanks between two texts change nothing where not both neighbours are word bytes. -/
theorem sameParse_insert (hgap : ∀ b ∈ gap, isWhitespace b = true) (hseam : ¬ WordsMeet s₁ s₂) :
    SameParse (s₁ ++ s₂) (s₁ ++ (gap ++ s₂)) := by
  cases gap with
  | nil => exact sameParse_of_lexemes rfl
  | cons w gap =>
    have hblank : lexemes (s₁ ++ (w :: gap ++ s₂)) = lexemes s₁ ++ lexemes s₂ :=
      lexemes_blanks hgap (List.cons_ne_nil w gap)
    cases s₂ with
    | nil =>
      refine sameParse_of_lexemes ?_
      rw [hblank, List.append_nil]
      exact (List.append_nil _).symm
    | cons c more =>
      rcases reads_seam (reads_lexemes s₁) (reads_lexemes (c :: more)) (reads_lexemes (s₁ ++ c :: more)) with
        heq | ⟨hc, x, hx, hword⟩ | ⟨hglued, happart⟩
      · exact sameParse_of_lexemes (heq.trans hblank.symm)
      · exact absurd ⟨x, hx, c, rfl, hword, hc⟩ hseam
      · refine sameParse_of_invalid (invalid_of_operators (.inl hglued)) (invalid_of_operators (.inr ?_))
        rw [hblank]
        exact happart

end

/-- **A blank is a token boundary and nothing else.** The tokens around it are those of its
two sides, in their places; the texts of tokens with single spaces between them are read as
the same tokens; and how many blanks stand somewhere makes no difference to the parser
where there are some, or where not two words meet. -/
theorem blank_is_boundary (s₁ s₂ : List UInt8) (w : UInt8) (hw : isWhitespace w = true) :
    tokensOf (s₁ ++ w :: s₂) = tokensOf s₁ ++ (tokensOf s₂).map (Token.shift (s₁.length + 1)) ∧
      lexemes (joined (lexemes s₁)) = lexemes s₁ ∧
      ∀ gap gap', (∀ b ∈ gap, isWhitespace b = true) → (∀ b ∈ gap', isWhitespace b = true) →
        ((gap ≠ [] ∧ gap' ≠ []) ∨ ¬ WordsMeet s₁ s₂) →
        SameParse (s₁ ++ (gap ++ s₂)) (s₁ ++ (gap' ++ s₂)) := by
  refine ⟨tokensOf_blank s₁ s₂ hw, lexemes_eq (reads_joined (lexical_lexemes s₁)), ?_⟩
  rintro gap gap' hgap hgap' (⟨hne, hne'⟩ | hseam)
  · exact sameParse_of_lexemes ((lexemes_blanks hgap hne).trans (lexemes_blanks hgap' hne').symm)
  · exact (sameParse_insert hgap hseam).symm.trans (sameParse_insert hgap' hseam)

theorem blank_is_boundary_less :
    tokensOf (ascii "a <" ++ byte ' ' :: ascii "= b") =
      tokensOf (ascii "a <") ++ (tokensOf (ascii "= b")).map (Token.shift 4) :=
  (blank_is_boundary (ascii "a <") (ascii "= b") (byte ' ') (by decide)).1

end CompilingToAssembly
