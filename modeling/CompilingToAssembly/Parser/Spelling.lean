import CompilingToAssembly.Parser.Tokenisation
import Mathlib.Data.List.Chain

/-! Texts that spell a token sequence.

Where one text ends and another begins no token may form across the seam, so that
the tokens of both together are those of the one followed by those of the other
(`lexemes_append`). What a byte can be glued to is decided by the classes alone:
words take letters and digits, operators take one of three bytes, and nothing else
takes anything (`glue_cases`). `Spaced` is the way a program is written down, and
such a text is read back as the tokens it spells (`Spaced.lexemes_eq`). -/
namespace CompilingToAssembly
open Library

/-- Every token is one that the lexer could return. -/
def Lexical (ls : List Lexeme) : Prop := ∀ l ∈ ls, inClass l.kind l.text = true

theorem lexical_lexemes (input : List UInt8) : Lexical (lexemes input) :=
  reads_inClass (reads_lexemes input)

theorem Lexical.append {u v : List Lexeme} (h : Lexical (u ++ v)) : Lexical u ∧ Lexical v :=
  ⟨fun l hl => h l (List.mem_append_left _ hl), fun l hl => h l (List.mem_append_right _ hl)⟩

theorem Lexical.cons {l : Lexeme} {ls : List Lexeme} (h : Lexical (l :: ls)) :
    inClass l.kind l.text = true ∧ Lexical ls :=
  ⟨h l (List.mem_cons_self ..), fun x hx => h x (List.mem_cons_of_mem _ hx)⟩

/-- Identifiers and numbers. -/
def isWord (l : Lexeme) : Bool := l.kind == .Identifier || l.kind == .Number

/-! ### Across a seam -/

/-- The byte could be read as one more byte of the token. -/
def Glues (l : Lexeme) (b : UInt8) : Prop := inClass l.kind (l.text ++ [b]) = true

/-- The bytes that are second in some operator. -/
def seconds : List UInt8 := ascii "=<>"

theorem second_mem_seconds {c c2 : UInt8} {second : List UInt8} (hp : prong c = .operator second)
    (hc2 : second.contains c2 = true) : c2 ∈ seconds := by
  have hmem : [c, c2] ∈ operators := by
    rw [← (prong_operator c second hp).2 c2] at hc2
    exact List.contains_iff_mem.mp hc2
  have htable : ∀ text ∈ operators, text.tail.all seconds.contains = true := by decide +kernel
  simpa using htable _ hmem

theorem glue_cases {l : Lexeme} {b : UInt8} (hl : inClass l.kind l.text = true) (h : Glues l b) :
    (isWord l = true ∧ isWordByte b = true) ∨ (l.kind = .Operator ∧ b ∈ seconds) := by
  obtain ⟨kind, text⟩ := l
  cases text with
  | nil => simp at hl
  | cons c w =>
    rcases inClass_cons h with ⟨rfl, _, hw⟩ | ⟨rfl, _, hw⟩ | ⟨_, hw⟩ | ⟨rfl, second, hp, hw | ⟨c2, hc2, hw⟩⟩
    · exact .inl ⟨rfl, List.all_eq_true.mp hw b (by simp)⟩
    · have hb : isDigit b = true := List.all_eq_true.mp hw b (by simp)
      exact .inl ⟨rfl, by simp [isWordByte, hb]⟩
    · simp at hw
    · simp at hw
    · refine .inr ⟨rfl, ?_⟩
      obtain ⟨rfl, rfl⟩ : w = [] ∧ b = c2 := by
        cases w with
        | nil => exact ⟨rfl, by simpa using hw⟩
        | cons d w => simp at hw
      exact second_mem_seconds hp hc2

theorem takeWhile_stop {α : Type} {p : α → Bool} {u v : List α} (hu : ∀ a ∈ u, p a = true)
    (hv : ∀ b ∈ v.head?, p b = false) : (u ++ v).takeWhile p = u ∧ (u ++ v).dropWhile p = v := by
  rw [List.takeWhile_append_of_pos hu, List.dropWhile_append_of_pos hu]
  cases v with
  | nil => simp
  | cons b v => simp [hv b rfl]

/-- A text of a class that is followed by nothing it could be glued to is a token. -/
theorem first_of_inClass {kind : TokenType} {c : UInt8} {w more : List UInt8}
    (h : inClass kind (c :: w) = true)
    (hstop : ∀ b ∈ more.head?, inClass kind (c :: w ++ [b]) = false) :
    first Chapter08.isNumeric c (w ++ more) = some (⟨kind, c :: w⟩, more) := by
  rcases inClass_cons h with ⟨rfl, hp, hw⟩ | ⟨rfl, hp, hw⟩ | ⟨hp, rfl⟩ | ⟨rfl, second, hp, hw⟩
  · have hall : ∀ a ∈ c :: w, Lexer.identifierByte Chapter08.isNumeric a = true := by
      intro a ha
      rcases List.mem_cons.mp ha with rfl | ha
      · exact identifierByte_of_prong hp
      · rw [identifierByte_eq]
        exact List.all_eq_true.mp hw a ha
    have hhead : ∀ b ∈ more.head?, Lexer.identifierByte Chapter08.isNumeric b = false := by
      intro b hb
      have := hstop b hb
      rw [identifierByte_eq]
      simpa [inClass, (prong_identifier c).mp hp, List.all_append, hw] using this
    obtain ⟨htake, hdrop⟩ := takeWhile_stop hall hhead
    simp only [first, hp]
    rw [← List.cons_append, htake, hdrop]
  · have hall : ∀ a ∈ c :: w, Chapter08.isNumeric a = true := by
      intro a ha
      rcases List.mem_cons.mp ha with rfl | ha
      · exact isDigit_of_nonzero _ ((prong_number _).mp hp)
      · exact List.all_eq_true.mp hw a ha
    have hhead : ∀ b ∈ more.head?, Chapter08.isNumeric b = false := by
      intro b hb
      have := hstop b hb
      show isDigit b = false
      simpa [inClass, (prong_number c).mp hp, List.all_append, hw] using this
    obtain ⟨htake, hdrop⟩ := takeWhile_stop hall hhead
    simp only [first, hp]
    rw [← List.cons_append, htake, hdrop]
  · simp [first, hp]
  · rcases hw with rfl | ⟨c2, hc2, rfl⟩
    · cases more with
      | nil => simp [first, hp]
      | cons b more =>
        have hb : second.contains b = false := by
          rw [← (prong_operator c second hp).2 b]
          exact hstop b rfl
        simp only [List.nil_append, first, hp, hb]
        rfl
    · simp only [List.cons_append, List.nil_append, first, hp, hc2, if_true]

/-- The rest of the input does not begin with a byte that belongs to the token. -/
theorem first_stops {ch : UInt8} {rest rest' : List UInt8} {l : Lexeme}
    (h : first Chapter08.isNumeric ch rest = some (l, rest')) : ∀ b ∈ rest'.head?, ¬ Glues l b := by
  intro b hb hglue
  cases rest' with
  | nil => cases hb
  | cons b' rest' =>
    cases hb
    have := first_maximal h (u := l.text ++ [b]) (v := rest')
      (by rw [first_append h, List.append_assoc]; rfl) (by simp) l.kind
    rw [Glues, this] at hglue
    cases hglue

theorem Reads.skip {skipped bytes : List UInt8} {ls : List Lexeme}
    (hskip : ∀ b ∈ skipped, prong b = .skip) (h : Reads Chapter08.isNumeric bytes ls) :
    Reads Chapter08.isNumeric (skipped ++ bytes) ls := by
  have hread := @read_skip Chapter08.isNumeric _ bytes hskip
  cases h with
  | done hr => exact .done (by rw [hread, hr]; rfl)
  | @step _ r _ hr hne hls =>
    exact .step (r := { r with skipped := skipped ++ r.skipped }) (by rw [hread, hr]; rfl) hne hls
  | stuck hr he => exact absurd he (read_ne_nil hr)

/-- A text of a class behind bytes that are stepped over is read up to its end. -/
theorem read_cons {skipped more : List UInt8} {l : Lexeme} (hskip : ∀ b ∈ skipped, prong b = .skip)
    (hl : inClass l.kind l.text = true) (hstop : ∀ b ∈ more.head?, ¬ Glues l b) :
    read Chapter08.isNumeric (skipped ++ (l.text ++ more)) = some ⟨skipped, l, more⟩ := by
  obtain ⟨kind, text⟩ := l
  cases text with
  | nil => simp at hl
  | cons c w =>
    have hfirst : first Chapter08.isNumeric c (w ++ more) = _ := first_of_inClass hl
      (fun b hb => by simpa [Glues] using hstop b hb)
    exact read_of_first hskip hfirst

/-- One token, some bytes stepped over before it, and what is read after it. -/
theorem Reads.cons {skipped more : List UInt8} {l : Lexeme} {ls : List Lexeme}
    (hskip : ∀ b ∈ skipped, prong b = .skip) (hl : inClass l.kind l.text = true)
    (hstop : ∀ b ∈ more.head?, ¬ Glues l b) (h : Reads Chapter08.isNumeric more ls) :
    Reads Chapter08.isNumeric (skipped ++ (l.text ++ more)) (l :: ls) := by
  refine .step (read_cons hskip hl hstop) ?_ h
  intro hnil
  rw [hnil, inClass_nil] at hl
  cases hl

/-- What is read first does not change with more text behind, unless that glues to it. -/
theorem read_extend {bytes more : List UInt8} {r : Reading} (hr : read Chapter08.isNumeric bytes = some r)
    (hseam : r.rest = [] → ∀ b ∈ more.head?, ¬ Glues r.lexeme b) :
    read Chapter08.isNumeric (bytes ++ more) = some { r with rest := r.rest ++ more } := by
  obtain ⟨hskip, ch, tail, _, hf⟩ := read_eq_some hr
  rw [read_append hr, List.append_assoc, List.append_assoc]
  apply read_cons hskip (read_inClass hr)
  intro b hb
  cases hrest : r.rest with
  | nil =>
    rw [hrest] at hb
    exact hseam hrest b hb
  | cons d rest =>
    rw [hrest] at hb
    exact first_stops hf b (by rw [hrest]; exact hb)

/-- **No token forms across a seam** whose two sides do not glue. -/
theorem Reads.append {bytes more : List UInt8} {ls ls' : List Lexeme}
    (h : Reads Chapter08.isNumeric bytes ls) (h' : Reads Chapter08.isNumeric more ls')
    (hseam : ∀ l ∈ ls.getLast?, ∀ b ∈ more.head?, ¬ Glues l b) :
    Reads Chapter08.isNumeric (bytes ++ more) (ls ++ ls') := by
  induction h with
  | done hr => exact h'.skip (read_eq_none.mp hr)
  | @step bytes r ls hr hne hls ih =>
    refine .step (r := { r with rest := r.rest ++ more }) (read_extend hr fun hrest => ?_) hne (ih ?_)
    · rw [hrest] at hls
      have hnil : ls = [] := hls.unique (.done rfl)
      exact hseam r.lexeme (by rw [hnil]; rfl)
    · intro l hl
      apply hseam l
      cases ls with
      | nil => cases hl
      | cons x xs => exact hl
  | stuck hr he => exact absurd he (read_ne_nil hr)

theorem lexemes_append {s t : List UInt8}
    (hseam : ∀ l ∈ (lexemes s).getLast?, ∀ b ∈ t.head?, ¬ Glues l b) :
    lexemes (s ++ t) = lexemes s ++ lexemes t :=
  lexemes_eq ((reads_lexemes s).append (reads_lexemes t) hseam)

/-! ### Spelling tokens out -/

def isWhitespace (c : UInt8) : Bool := (ascii " \t\n\r").contains c || c == 11 || c == 12

theorem whitespace_apart (c : UInt8) (h : isWhitespace c = true) :
    prong c = .skip ∧ isWordByte c = false ∧ c ∉ seconds :=
  forall_byte (P := fun c => isWhitespace c = true →
    prong c = .skip ∧ isWordByte c = false ∧ c ∉ seconds) (by decide +kernel) c h

theorem not_glues_whitespace {l : Lexeme} (hl : inClass l.kind l.text = true) {c : UInt8}
    (h : isWhitespace c = true) : ¬ Glues l c := by
  obtain ⟨_, hword, hsecond⟩ := whitespace_apart c h
  intro hglue
  rcases glue_cases hl hglue with ⟨_, hw⟩ | ⟨_, hs⟩
  · rw [hword] at hw
    cases hw
  · exact hsecond hs

theorem skip_space : ∀ b ∈ [byte ' '], prong b = .skip := by decide +kernel

theorem skip_nothing : ∀ b ∈ ([] : List UInt8), prong b = .skip := fun _ hb => (nomatch hb)

/-- Each token after a blank. -/
def spell (ls : List Lexeme) : List UInt8 := ls.flatMap fun l => byte ' ' :: l.text

/-- A spelled sequence starts with a blank, which no token takes. -/
theorem spell_stops {l : Lexeme} (hl : inClass l.kind l.text = true) (ls : List Lexeme) :
    ∀ b ∈ (spell ls).head?, ¬ Glues l b := by
  intro b hb
  cases ls with
  | nil => cases hb
  | cons l' ls =>
    obtain rfl : b = byte ' ' := by simpa [spell] using hb.symm
    exact not_glues_whitespace hl (by decide)

theorem reads_spell {ls : List Lexeme} (h : Lexical ls) : Reads Chapter08.isNumeric (spell ls) ls := by
  induction ls with
  | nil => exact .done rfl
  | cons l ls ih =>
    obtain ⟨hl, hls⟩ := h.cons
    show Reads _ ([byte ' '] ++ (l.text ++ spell ls)) _
    exact Reads.cons skip_space hl (spell_stops hl ls) (ih hls)

/-- Any token sequence can be appended to a text. -/
theorem lexemes_append_spell (s : List UInt8) {ls : List Lexeme} (h : Lexical ls) :
    lexemes (s ++ spell ls) = lexemes s ++ ls := by
  have hspell := lexemes_eq (reads_spell h)
  rw [lexemes_append, hspell]
  intro l hl
  exact spell_stops (lexical_lexemes s l (List.mem_of_getLast? hl)) ls

/-- `text` writes the tokens down in order, with any whitespace around them, and some
where two words meet. -/
inductive Spaced : List Lexeme → List UInt8 → Prop where
  | nil {gap} : (∀ b ∈ gap, isWhitespace b = true) → Spaced [] gap
  | cons {gap l ls text} : (∀ b ∈ gap, isWhitespace b = true) →
      (isWord l = true → (∃ l' ∈ ls.head?, isWord l' = true) → ∃ b ∈ text.head?, isWhitespace b = true) →
      Spaced ls text → Spaced (l :: ls) (gap ++ (l.text ++ text))

theorem spaced_spell (ls : List Lexeme) : Spaced ls (spell ls) := by
  induction ls with
  | nil => exact .nil fun _ hb => (nomatch hb)
  | cons l ls ih =>
    refine @Spaced.cons [byte ' '] l ls (spell ls) (by decide +kernel) (fun _ hnext => ?_) ih
    cases ls with
    | nil =>
      obtain ⟨_, hl, _⟩ := hnext
      cases hl
    | cons l' ls => exact ⟨byte ' ', rfl, by decide⟩

/-- A spaced text starts with whitespace or with its first token. -/
theorem Spaced.head {ls : List Lexeme} {text : List UInt8} (h : Spaced ls text) (hls : Lexical ls)
    {b : UInt8} (hb : b ∈ text.head?) :
    isWhitespace b = true ∨ ∃ l ∈ ls.head?, l.text.head? = some b := by
  cases h with
  | nil hgap => exact .inl (hgap b (List.mem_of_mem_head? hb))
  | @cons gap l ls text hgap _ _ =>
    cases gap with
    | cons c gap =>
      cases hb
      exact .inl (hgap b (List.mem_cons_self ..))
    | nil =>
      refine .inr ⟨l, rfl, ?_⟩
      cases htext : l.text with
      | nil =>
        have := hls.cons.1
        rw [htext, inClass_nil] at this
        cases this
      | cons c w =>
        rw [htext] at hb
        exact hb

/-- No operator stands directly before an operator. -/
def OperatorsApart (ls : List Lexeme) : Prop :=
  ls.IsChain fun l l' => l.kind = .Operator → l'.kind ≠ .Operator

/-- The first byte of a token decides whether it is a word, or an operator. -/
theorem head_class {l : Lexeme} (hl : inClass l.kind l.text = true) {b : UInt8}
    (hb : l.text.head? = some b) :
    (isWordByte b = true → isWord l = true) ∧ (b ∈ seconds → l.kind = .Operator) := by
  obtain ⟨kind, text⟩ := l
  cases text with
  | nil => cases hb
  | cons c w =>
    cases hb
    have hbytes := forall_byte (P := fun b =>
      (isWordByte b = true → prong b = .identifier ∨ prong b = .number ∨ prong b = .skip) ∧
        (b ∈ seconds → prong b = .operator [byte '='] ∨ prong b = .operator [byte '=', b]))
      (by decide +kernel) b
    rcases inClass_cons hl with ⟨rfl, hp, _⟩ | ⟨rfl, hp, _⟩ | ⟨hp, _⟩ | ⟨rfl, second, hp, _⟩
    · refine ⟨fun _ => rfl, fun hs => ?_⟩
      rcases hbytes.2 hs with h | h <;> rw [hp] at h <;> cases h
    · refine ⟨fun _ => rfl, fun hs => ?_⟩
      rcases hbytes.2 hs with h | h <;> rw [hp] at h <;> cases h
    · refine ⟨fun hw => ?_, fun hs => ?_⟩
      · rcases hbytes.1 hw with h | h | h <;> rw [hp] at h <;> cases h
      · rcases hbytes.2 hs with h | h <;> rw [hp] at h <;> cases h
    · refine ⟨fun hw => ?_, fun _ => rfl⟩
      rcases hbytes.1 hw with h | h | h <;> rw [hp] at h <;> cases h

theorem Spaced.reads {ls : List Lexeme} {text : List UInt8} (h : Spaced ls text) (hls : Lexical ls)
    (hops : OperatorsApart ls) : Reads Chapter08.isNumeric text ls := by
  induction h with
  | nil hgap => exact .done (read_eq_none.mpr fun b hb => (whitespace_apart b (hgap b hb)).1)
  | @cons gap l ls text hgap hmeet hspaced ih =>
    obtain ⟨hl, hls'⟩ := hls.cons
    refine .cons (fun b hb => (whitespace_apart b (hgap b hb)).1) hl ?_ (ih hls' hops.tail)
    intro b hb hglue
    rcases hspaced.head hls' hb with hw | ⟨l', hl', htext⟩
    · exact not_glues_whitespace hl hw hglue
    · have hclass := head_class (hls' l' (List.mem_of_mem_head? hl')) htext
      rcases glue_cases hl hglue with ⟨hword, hbyte⟩ | ⟨hop, hsecond⟩
      · obtain ⟨b', hb', hw⟩ := hmeet hword ⟨l', hl', hclass.1 hbyte⟩
        rw [Option.mem_unique hb hb'] at hglue
        exact not_glues_whitespace hl hw hglue
      · cases ls with
        | nil => cases hl'
        | cons x xs =>
          cases hl'
          exact (List.isChain_cons_cons.mp hops).1 hop (hclass.2 hsecond)

/-- **A text that spells tokens out is read as those tokens.** -/
theorem Spaced.lexemes_eq {ls : List Lexeme} {text : List UInt8} (h : Spaced ls text)
    (hls : Lexical ls) (hops : OperatorsApart ls) : lexemes text = ls :=
  CompilingToAssembly.lexemes_eq (h.reads hls hops)

end CompilingToAssembly
