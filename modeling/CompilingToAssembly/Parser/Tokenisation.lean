import CompilingToAssembly.Parser.Lexemes
import Mathlib.Data.List.TakeWhile

/-! Chapter 8's lexer computes the leftmost-longest tokenisation.

`inClass` is the lexical grammar, one class of texts for each token type, and
`Tokenisation input tokens` says that a list of spans is its leftmost-longest
reading of the input. The bridge to the lexer is `inClass_cons`: the first byte of
a text decides which class it can belong to, and the lexer's `switch` takes the
arm for that class. -/
namespace CompilingToAssembly
open Library

/-- `[A-Za-z_]` -/
def isWordStart (c : UInt8) : Bool := between 'A' 'Z' c || between 'a' 'z' c || c == byte '_'

/-- `[A-Za-z0-9_]` -/
def isWordByte (c : UInt8) : Bool := isWordStart c || isDigit c

def operators : List (List UInt8) :=
  ["+", "-", "*", "/", "=", "==", "<", "<=", "<<", ">", ">=", ">>", "!", "!="].map ascii

/-- The texts of each token type. No rule produces a `Keyword`. -/
def inClass : TokenType → List UInt8 → Bool
  | .Identifier, c :: cs => isWordStart c && cs.all isWordByte
  | .Number, c :: cs => between '1' '9' c && cs.all isDigit
  | .Operator, text => operators.contains text
  | .LeftCurly, text => text == ascii "\x7b"
  | .RightCurly, text => text == ascii "\x7d"
  | .LeftParen, text => text == ascii "("
  | .RightParen, text => text == ascii ")"
  | .LeftBracket, text => text == ascii "["
  | .RightBracket, text => text == ascii "]"
  | .Comma, text => text == ascii ","
  | .Semicolon, text => text == ascii ";"
  | .Colon, text => text == ascii ":"
  | _, _ => false

@[simp] theorem inClass_nil (kind : TokenType) : inClass kind [] = false := by
  cases kind <;> decide

/-! ### The first byte decides -/

theorem prong_identifier (ch : UInt8) : prong ch = .identifier ↔ isWordStart ch = true :=
  forall_byte (P := fun ch => prong ch = .identifier ↔ isWordStart ch = true) (by decide +kernel) ch

theorem identifierByte_eq (c : UInt8) :
    Lexer.identifierByte Chapter08.isNumeric c = isWordByte c :=
  forall_byte (P := fun c => Lexer.identifierByte Chapter08.isNumeric c = isWordByte c)
    (by decide +kernel) c

/-- The token type of an arm for one byte. -/
def Prong.single? : Prong → Option TokenType
  | .single tokenType => some tokenType
  | _ => none

/-- The second bytes of an operator's arm. -/
def Prong.second? : Prong → Option (List UInt8)
  | .operator second => some second
  | _ => none

theorem prong_single (ch : UInt8) (kind : TokenType) (h : prong ch = .single kind) :
    inClass kind [ch] = true ∧ kind ≠ .Identifier ∧ kind ≠ .Number ∧ kind ≠ .Operator := by
  have := forall_byte (P := fun ch => (prong ch).single?.all (fun kind =>
    inClass kind [ch] && kind != .Identifier && kind != .Number && kind != .Operator) = true)
    (by decide +kernel) ch
  rw [h] at this
  simpa [Prong.single?, and_assoc] using this

theorem prong_operator (ch : UInt8) (second : List UInt8) (h : prong ch = .operator second) :
    inClass .Operator [ch] = true ∧ ∀ c2, inClass .Operator [ch, c2] = second.contains c2 := by
  have := forall_byte (P := fun ch => (prong ch).second?.all (fun second => inClass .Operator [ch] &&
    operators.all (fun text => text.head? != some ch || text.length == 1 ||
      text.tail.all second.contains) &&
    second.all (fun c2 => inClass .Operator [ch, c2])) = true) (by decide +kernel) ch
  rw [h] at this
  obtain ⟨⟨hone, hall⟩, hsecond⟩ : (inClass .Operator [ch] = true ∧ _) ∧ _ := by
    simpa only [Prong.second?, Option.all_some, Bool.and_eq_true] using this
  refine ⟨hone, fun c2 => ?_⟩
  cases hc : second.contains c2 with
  | true => exact List.all_eq_true.mp hsecond c2 (List.contains_iff_mem.mp hc)
  | false =>
    cases hin : inClass .Operator [ch, c2] with
    | false => rfl
    | true =>
      have hmem : [ch, c2] ∈ operators := List.contains_iff_mem.mp hin
      have := List.all_eq_true.mp hall _ hmem
      simp only [List.head?_cons, bne_self_eq_false, List.length_cons, List.length_nil, List.tail_cons,
        List.all_cons, List.all_nil, hc, Bool.false_and, Bool.or_false, Bool.false_or] at this
      cases this

/-- Which class a text can belong to is decided by its first byte. -/
theorem inClass_cons {kind : TokenType} {ch : UInt8} {w : List UInt8}
    (h : inClass kind (ch :: w) = true) :
    (kind = .Identifier ∧ prong ch = .identifier ∧ w.all isWordByte = true) ∨
      (kind = .Number ∧ prong ch = .number ∧ w.all isDigit = true) ∨
      (prong ch = .single kind ∧ w = []) ∨
      (kind = .Operator ∧ ∃ second, prong ch = .operator second ∧
        (w = [] ∨ ∃ c2, second.contains c2 = true ∧ w = [c2])) := by
  have single {kind : TokenType} {c : UInt8} (hp : prong c = .single kind) (heq : ch :: w = [c]) :
      prong ch = .single kind ∧ w = [] := by
    obtain ⟨rfl, rfl⟩ := List.cons.inj heq
    exact ⟨hp, rfl⟩
  cases kind with
  | Identifier =>
    simp only [inClass, Bool.and_eq_true] at h
    exact .inl ⟨rfl, (prong_identifier ch).mpr h.1, h.2⟩
  | Number =>
    simp only [inClass, Bool.and_eq_true] at h
    exact .inr (.inl ⟨rfl, (prong_number ch).mpr h.1, h.2⟩)
  | Operator =>
    have hmem : ch :: w ∈ operators := List.contains_iff_mem.mp h
    have hlist : operators.all (fun text => text.head?.any fun c => (prong c).second?.any fun second =>
        text.tail == [] || (text.tail.length == 1 && text.tail.all second.contains)) = true := by
      decide +kernel
    have := List.all_eq_true.mp hlist _ hmem
    simp only [List.head?_cons, Option.any_some, List.tail_cons] at this
    cases hp : prong ch with
    | operator second =>
      rw [hp] at this
      simp only [Prong.second?, Option.any_some] at this
      refine .inr (.inr (.inr ⟨rfl, second, rfl, ?_⟩))
      cases w with
      | nil => exact .inl rfl
      | cons c2 w =>
        right
        cases w with
        | nil => exact ⟨c2, by simpa using this, rfl⟩
        | cons c3 w => simp at this
    | _ => rw [hp] at this; cases this
  | Keyword => simp [inClass] at h
  | _ => exact .inr (.inr (.inl (single (by decide +kernel) (eq_of_beq h))))

theorem prong_of_inClass {kind : TokenType} {ch : UInt8} {w : List UInt8}
    (h : inClass kind (ch :: w) = true) : prong ch ≠ .skip := by
  rcases inClass_cons h with ⟨_, hp, _⟩ | ⟨_, hp, _⟩ | ⟨hp, _⟩ | ⟨_, second, hp, _⟩ <;> rw [hp] <;> simp

/-! ### One token -/

theorem isWordByte_of_start {c : UInt8} (h : isWordStart c = true) : isWordByte c = true := by
  simp [isWordByte, h]

theorem isDigit_of_nonzero (c : UInt8) (h : between '1' '9' c = true) : isDigit c = true :=
  forall_byte (P := fun c => between '1' '9' c = true → isDigit c = true) (by decide +kernel) c h

variable {ch : UInt8} {rest rest' : List UInt8} {l : Lexeme}

/-- The text of a token is in the class its type names. -/
theorem first_inClass (h : first Chapter08.isNumeric ch rest = some (l, rest')) :
    inClass l.kind l.text = true := by
  rcases first_cases h with ⟨hp, rfl, _⟩ | ⟨hp, rfl, _⟩ | ⟨kind, hp, rfl, _⟩ |
    ⟨second, hp, ⟨rfl, _⟩ | ⟨c2, hc2, rfl, _⟩⟩
  · simp only [inClass, (prong_identifier ch).mp hp, Bool.true_and, List.all_eq_true]
    intro c hc
    rw [← identifierByte_eq]
    exact List.mem_takeWhile_imp hc
  · have hs := (prong_number ch).mp hp
    rw [List.takeWhile_cons_of_pos (p := Chapter08.isNumeric) (isDigit_of_nonzero ch hs)]
    simp only [inClass, hs, Bool.true_and, List.all_eq_true]
    intro c hc
    exact List.mem_takeWhile_imp hc
  · exact (prong_single ch kind hp).1
  · exact (prong_operator ch second hp).1
  · rw [(prong_operator ch second hp).2, hc2]

theorem first_ne_nil (h : first Chapter08.isNumeric ch rest = some (l, rest')) : l.text ≠ [] := by
  intro he
  have := first_inClass h
  rw [he, inClass_nil] at this
  cases this

/-- A prefix all of whose bytes are kept is no longer than the run of kept bytes. -/
theorem length_le_takeWhile {α : Type} {p : α → Bool} {u v : List α} (h : ∀ a ∈ u, p a = true) :
    u.length ≤ ((u ++ v).takeWhile p).length := by
  rw [List.takeWhile_append_of_pos h]
  simp

theorem first_identifier (hp : prong ch = .identifier)
    (h : first Chapter08.isNumeric ch rest = some (l, rest')) :
    l.text = (ch :: rest).takeWhile (Lexer.identifierByte Chapter08.isNumeric) := by
  simp only [first, hp, Option.some.injEq, Prod.mk.injEq] at h
  rw [← h.1]

theorem first_operator {second : List UInt8} {c2 : UInt8} (hp : prong ch = .operator second)
    (hc2 : second.contains c2 = true)
    (h : first Chapter08.isNumeric ch (c2 :: rest) = some (l, rest')) : l.text = [ch, c2] := by
  simp only [first, hp, hc2, if_true, Option.some.injEq, Prod.mk.injEq] at h
  rw [← h.1]

/-- No longer text from the token's start on is in any class. -/
theorem first_maximal (h : first Chapter08.isNumeric ch rest = some (l, rest')) {u v : List UInt8}
    (huv : ch :: rest = u ++ v) (hlen : l.text.length < u.length) (kind : TokenType) :
    inClass kind u = false := by
  cases u with
  | nil => simp
  | cons c w =>
    cases hin : inClass kind (c :: w) with
    | false => rfl
    | true =>
      exfalso
      obtain ⟨rfl, rfl⟩ : ch = c ∧ rest = w ++ v := by simpa using huv
      have hpos := List.length_pos_iff.mpr (first_ne_nil h)
      rcases inClass_cons hin with ⟨_, hp, hw⟩ | ⟨_, hp, hw⟩ | ⟨_, rfl⟩ | ⟨_, second, hp, rfl | ⟨c2, hc2, rfl⟩⟩
      · have hall : ∀ a ∈ ch :: w, Lexer.identifierByte Chapter08.isNumeric a = true := by
          refine List.forall_mem_cons.mpr ⟨identifierByte_of_prong hp, fun a ha => ?_⟩
          rw [identifierByte_eq]
          exact List.all_eq_true.mp hw a ha
        rw [first_identifier hp h] at hlen
        exact absurd (length_le_takeWhile hall) (Nat.not_le_of_lt hlen)
      · have hall : ∀ a ∈ ch :: w, Chapter08.isNumeric a = true :=
          List.forall_mem_cons.mpr
            ⟨isDigit_of_nonzero _ ((prong_number _).mp hp), List.all_eq_true.mp hw⟩
        rw [first_number hp h] at hlen
        exact absurd (length_le_takeWhile hall) (Nat.not_le_of_lt hlen)
      · rw [List.length_singleton] at hlen
        omega
      · rw [List.length_singleton] at hlen
        omega
      · rw [first_operator hp hc2 h] at hlen
        exact absurd hlen (Nat.lt_irrefl _)

/-! ### Token sequences of chapter 8 -/

theorem read_inClass {bytes : List UInt8} {r : Reading} (h : read Chapter08.isNumeric bytes = some r) :
    inClass r.lexeme.kind r.lexeme.text = true := by
  obtain ⟨_, ch, tail, _, hf⟩ := read_eq_some h
  exact first_inClass hf

theorem read_ne_nil {bytes : List UInt8} {r : Reading} (h : read Chapter08.isNumeric bytes = some r) :
    r.lexeme.text ≠ [] := by
  obtain ⟨_, ch, tail, _, hf⟩ := read_eq_some h
  exact first_ne_nil hf

/-- A sequence read from a text starts with what is read first. -/
theorem Reads.of_read {bytes : List UInt8} {r : Reading} (hr : read Chapter08.isNumeric bytes = some r)
    {ls : List Lexeme} (h : Reads Chapter08.isNumeric bytes ls) :
    ∃ ls', ls = r.lexeme :: ls' ∧ Reads Chapter08.isNumeric r.rest ls' := by
  cases h with
  | done hr' => rw [hr] at hr'; cases hr'
  | step hr' _ hls =>
    rw [hr] at hr'
    cases hr'
    exact ⟨_, rfl, hls⟩
  | stuck hr' hnil => exact absurd hnil (read_ne_nil hr')

theorem reads_inClass {bytes : List UInt8} {ls : List Lexeme} (h : Reads Chapter08.isNumeric bytes ls) :
    ∀ l ∈ ls, inClass l.kind l.text = true := by
  induction h with
  | done _ => intro l hl; cases hl
  | step hr _ _ ih =>
    intro l hl
    rcases List.mem_cons.mp hl with rfl | hl
    · exact read_inClass hr
    · exact ih l hl
  | stuck hr he => exact absurd he (read_ne_nil hr)

theorem reads_length_le {bytes : List UInt8} {ls : List Lexeme}
    (h : Reads Chapter08.isNumeric bytes ls) : ls.length ≤ bytes.length := by
  induction h with
  | done _ => exact Nat.zero_le _
  | step hr hne _ ih =>
    have := read_length hr hne
    simp only [List.length_cons]
    omega
  | stuck hr he => exact absurd he (read_ne_nil hr)

/-- Calling `next` again and again until it fails with `MissingToken`. -/
inductive Lexer.Yields (isNumeric : UInt8 → Bool) : Lexer → List Token → Prop where
  | missing {self} : self.next isNumeric = .error MissingToken → Yields isNumeric self []
  | token {self after t ts} : self.next isNumeric = .ok (t, after) → Yields isNumeric after ts →
      Yields isNumeric self (t :: ts)

/-- The tokens a lexer yields, and what they read. -/
theorem yields_reads {bytes : List UInt8} {ls : List Lexeme} (h : Reads Chapter08.isNumeric bytes ls)
    (self : Lexer) (hdone : self.done = false) (hrest : self.rest = bytes) (n : Nat)
    (hn : ls.length < n) :
    self.Yields Chapter08.isNumeric (self.tokens Chapter08.isNumeric n) ∧
      (self.tokens Chapter08.isNumeric n).map self.lexeme = ls := by
  induction h generalizing self n with
  | done hr =>
    obtain ⟨m, rfl⟩ : ∃ m, n = m + 1 := ⟨n - 1, by omega⟩
    have hnext := @Lexer.next_read Chapter08.isNumeric self hdone
    rw [hrest, hr] at hnext
    simp only [Lexer.tokens, hnext]
    exact ⟨.missing hnext, rfl⟩
  | @step _ r ls hr hne _ ih =>
    obtain ⟨m, rfl⟩ : ∃ m, n = m + 1 := ⟨n - 1, by omega⟩
    subst hrest
    have hnext := @Lexer.next_read Chapter08.isNumeric self hdone
    rw [hr] at hnext
    simp only [List.length_cons] at hn
    obtain ⟨hyields, hmap⟩ := ih (self.after r) hdone (Lexer.rest_after hr) m (by omega)
    rw [Lexer.lexeme_after] at hmap
    simp only [Lexer.tokens, hnext]
    refine ⟨.token hnext hyields, ?_⟩
    rw [List.map_cons, hmap, Lexer.lexeme_token hr]
  | stuck hr he => exact absurd he (read_ne_nil hr)

theorem reads_lexemes (input : List UInt8) : Reads Chapter08.isNumeric input (lexemes input) := by
  obtain ⟨ls, hls⟩ := @exists_reads Chapter08.isNumeric input
  have hlen := reads_length_le hls
  have := (yields_reads hls (Lexer.init input) rfl (Lexer.rest_init input) (input.length + 1)
    (by omega)).2
  unfold lexemes
  rw [this]
  exact hls

theorem lexemes_eq {input : List UInt8} {ls : List Lexeme} (h : Reads Chapter08.isNumeric input ls) :
    lexemes input = ls :=
  (reads_lexemes input).unique h

/-- The bound in `lexemes` is never met: its tokens are all that `next` yields. -/
theorem yields_tokens (input : List UInt8) : (Lexer.init input).Yields Chapter08.isNumeric
    ((Lexer.init input).tokens Chapter08.isNumeric (input.length + 1)) := by
  obtain ⟨ls, hls⟩ := @exists_reads Chapter08.isNumeric input
  have hlen := reads_length_le hls
  exact (yields_reads hls (Lexer.init input) rfl (Lexer.rest_init input) _ (by omega)).1

/-! ### Leftmost-longest -/

/-- The bytes of `input` from `start` up to `finish`. -/
def span (input : List UInt8) (start finish : Nat) : List UInt8 :=
  (input.drop start).take (finish - start)

/-- `tokens` is the leftmost-longest reading of the bytes of `input` from `index` on. -/
structure Tokenisation (input : List UInt8) (index : Nat) (tokens : List Token) : Prop where
  inside : ∀ t ∈ tokens, index ≤ t.start ∧ t.start < t.finish ∧ t.finish ≤ input.length
  ordered : tokens.Pairwise fun a b => a.finish ≤ b.start
  classified : ∀ t ∈ tokens, inClass t.tokenType (span input t.start t.finish) = true
  maximal : ∀ t ∈ tokens, ∀ stop, t.finish < stop → stop ≤ input.length →
    ∀ kind, inClass kind (span input t.start stop) = false
  gaps : ∀ i b, index ≤ i → input[i]? = some b → (∀ t ∈ tokens, ¬ (t.start ≤ i ∧ i < t.finish)) →
    ∀ kind w, inClass kind (b :: w) = false

section Step
variable {self : Lexer} {r : Reading} (hr : read Chapter08.isNumeric self.rest = some r)
include hr

theorem input_split : self.input = self.input.take self.index ++ (r.skipped ++ (r.lexeme.text ++ r.rest)) := by
  rw [← read_append hr, Lexer.rest, List.take_append_drop]

theorem index_le : self.index ≤ self.input.length := by
  have hpos := List.length_pos_iff.mpr (read_ne_nil hr)
  have := congrArg List.length (read_append hr)
  simp only [Lexer.rest, List.length_drop, List.length_append] at this
  omega

theorem token_finish_le : (self.token r).finish ≤ self.input.length := by
  have hle := index_le hr
  have := congrArg List.length (input_split hr)
  simp only [List.length_append, List.length_take, Nat.min_eq_left hle] at this
  simp only [Lexer.token]
  omega

theorem span_token : span self.input (self.token r).start (self.token r).finish = r.lexeme.text := by
  unfold span
  rw [Lexer.drop_token_start hr]
  simp [Lexer.token]

theorem token_maximal {stop : Nat} (hstop : (self.token r).finish < stop)
    (hlen : stop ≤ self.input.length) (kind : TokenType) :
    inClass kind (span self.input (self.token r).start stop) = false := by
  obtain ⟨_, ch, tail, _, hf⟩ := read_eq_some hr
  have hfinish : (self.token r).finish = (self.token r).start + r.lexeme.text.length := rfl
  have hbytes : ch :: tail = self.input.drop (self.token r).start := by
    rw [Lexer.drop_token_start hr, first_append hf]
  have hall := congrArg List.length hbytes
  simp only [List.length_drop] at hall
  apply first_maximal hf (v := (ch :: tail).drop (stop - (self.token r).start))
  · unfold span
    rw [← hbytes, List.take_append_drop]
  · unfold span
    simp only [List.length_take, List.length_drop]
    omega

/-- A byte before the token starts none. -/
theorem skipped_byte {i : Nat} {b : UInt8} (hi : self.index ≤ i) (hlt : i < (self.token r).start)
    (hb : self.input[i]? = some b) (kind : TokenType) (w : List UInt8) :
    inClass kind (b :: w) = false := by
  have hmem : b ∈ r.skipped := by
    have hle := index_le hr
    have hlt' : i - self.index < r.skipped.length := by
      simp only [Lexer.token] at hlt
      omega
    rw [input_split hr, List.getElem?_append_right (by simp; omega), List.length_take,
      Nat.min_eq_left hle, List.getElem?_append_left hlt'] at hb
    exact List.mem_of_getElem? hb
  have hskip := (read_eq_some hr).1 b hmem
  cases hin : inClass kind (b :: w) with
  | false => rfl
  | true => exact absurd hskip (prong_of_inClass hin)

/-- One more token in front of a leftmost-longest reading. -/
theorem tokenisation_step {ts : List Token}
    (h : Tokenisation self.input (self.after r).index ts) :
    Tokenisation self.input self.index (self.token r :: ts) := by
  have hfinish : (self.token r).finish = (self.token r).start + r.lexeme.text.length := rfl
  have hafter : (self.after r).index = (self.token r).finish := by
    simp [Lexer.after, Lexer.token, Nat.add_assoc]
  have hstart : self.index ≤ (self.token r).start := Nat.le_add_right _ _
  have hpos := List.length_pos_iff.mpr (read_ne_nil hr)
  rw [hafter] at h
  constructor
  · intro t ht
    rcases List.mem_cons.mp ht with rfl | ht
    · exact ⟨hstart, by omega, token_finish_le hr⟩
    · have := h.inside t ht
      omega
  · exact List.pairwise_cons.mpr ⟨fun t ht => (h.inside t ht).1, h.ordered⟩
  · intro t ht
    rcases List.mem_cons.mp ht with rfl | ht
    · rw [span_token hr]
      exact read_inClass hr
    · exact h.classified t ht
  · intro t ht stop hstop hlen kind
    rcases List.mem_cons.mp ht with rfl | ht
    · exact token_maximal hr hstop hlen kind
    · exact h.maximal t ht stop hstop hlen kind
  · intro i b hi hb hout kind w
    by_cases hbefore : i < (self.token r).start
    · exact skipped_byte hr hi hbefore hb kind w
    · have := hout _ (List.mem_cons_self ..)
      exact h.gaps i b (by omega) hb (fun t ht => hout t (List.mem_cons_of_mem _ ht)) kind w

end Step

/-- Whatever a lexer yields is leftmost-longest from its index on. -/
theorem yields_tokenisation {self : Lexer} {ts : List Token}
    (h : self.Yields Chapter08.isNumeric ts) (hdone : self.done = false) :
    Tokenisation self.input self.index ts := by
  induction h with
  | @missing self hnext =>
    rw [Lexer.next_read self hdone] at hnext
    cases hr : read Chapter08.isNumeric self.rest with
    | some r => rw [hr] at hnext; cases hnext
    | none =>
      refine ⟨by simp, .nil, by simp, by simp, ?_⟩
      intro i b hi hb _ kind w
      have hmem : b ∈ self.rest := by
        apply List.mem_of_getElem? (i := i - self.index)
        rw [Lexer.rest, List.getElem?_drop]
        rw [Nat.add_sub_cancel' hi]
        exact hb
      cases hin : inClass kind (b :: w) with
      | false => rfl
      | true => exact absurd (read_eq_none.mp hr b hmem) (prong_of_inClass hin)
  | @token self after t ts hnext _ ih =>
    rw [Lexer.next_read self hdone] at hnext
    cases hr : read Chapter08.isNumeric self.rest with
    | none => rw [hr] at hnext; cases hnext
    | some r =>
      rw [hr] at hnext
      cases hnext
      exact tokenisation_step hr (ih hdone)

/-- **The lexer computes the leftmost-longest tokenisation.** On every input,
repeated calls of `next` end with `MissingToken` after finitely many tokens, whose
spans are non-empty, inside the input and in order; each reads a text of the class
its type names, no longer text from its start on is in any class, and no byte
between them could start one. -/
theorem lexer_leftmost_longest (input : List UInt8) :
    ∃ ts, (Lexer.init input).Yields Chapter08.isNumeric ts ∧ Tokenisation input 0 ts :=
  ⟨_, yields_tokens input, yields_tokenisation (yields_tokens input) rfl⟩

end CompilingToAssembly
