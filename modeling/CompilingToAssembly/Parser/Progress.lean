import CompilingToAssembly.Library.Steps
import CompilingToAssembly.Parser.Blanks

/-! Calling the lexer again and again.

A call that returns moves the lexer past the token it returns. Whether that is
further than before depends on the token having text. In chapter 8 it always has;
in chapter 6 a nine enters the number arm and is no digit to the loop there, so
that `next` stays where it is (`lexer_progress_iff`). -/
namespace CompilingToAssembly
open Library

namespace Lexer
variable {isNumeric : UInt8 → Bool} {self after : Lexer} {t : Token} {ts : List Token}

theorem next_of_read (hdone : self.done = false) {r : Reading} (hr : read isNumeric self.rest = some r) :
    self.next isNumeric = .ok (self.token r, self.after r) := by
  rw [next_read self hdone, hr]

theorem next_of_none (hdone : self.done = false) (hr : read isNumeric self.rest = none) :
    self.next isNumeric = .error MissingToken := by
  rw [next_read self hdone, hr]

/-- What a call that returns has read. -/
theorem next_ok (h : self.next isNumeric = .ok (t, after)) :
    self.done = false ∧ ∃ r, read isNumeric self.rest = some r ∧ t = self.token r ∧ after = self.after r := by
  have hdone : self.done = false := by
    cases hd : self.done with
    | false => rfl
    | true => simp [next, hd] at h
  rw [next_read self hdone] at h
  cases hr : read isNumeric self.rest with
  | none => rw [hr] at h; cases h
  | some r =>
    rw [hr] at h
    cases h
    exact ⟨hdone, r, rfl, rfl, rfl⟩

/-- A call that fails has nothing left to read. -/
theorem next_error {e : Error} (hdone : self.done = false) (h : self.next isNumeric = .error e) :
    e = MissingToken ∧ read isNumeric self.rest = none := by
  rw [next_read self hdone] at h
  cases hr : read isNumeric self.rest with
  | none =>
    rw [hr] at h
    cases h
    exact ⟨rfl, rfl⟩
  | some r => rw [hr] at h; cases h

theorem steps_input (h : Steps (Lexer.next isNumeric) self ts after) : after.input = self.input := by
  refine h.invariant (P := fun l => l.input = self.input) ?_ rfl
  intro l t l' hnext hl
  obtain ⟨_, r, _, _, rfl⟩ := next_ok hnext
  exact hl

theorem steps_done (h : Steps (Lexer.next isNumeric) self ts after) (hdone : self.done = false) :
    after.done = false := by
  refine h.invariant (P := fun l => l.done = false) ?_ hdone
  intro l t l' hnext hl
  obtain ⟨_, r, _, _, rfl⟩ := next_ok hnext
  exact hl

theorem index_after (r : Reading) : (self.after r).index = (self.token r).finish := by
  simp [after, token, Nat.add_assoc]

/-- With text to read, a call moves on. -/
theorem token_progress {r : Reading} (hne : r.lexeme.text ≠ []) :
    (self.token r).start < (self.token r).finish ∧ (self.after r).index = (self.token r).finish ∧
      self.index < (self.after r).index := by
  have hpos := List.length_pos_iff.mpr hne
  rw [index_after]
  refine ⟨?_, rfl, ?_⟩ <;> simp only [token] <;> omega

end Lexer

/-- A token without text is met by calling `next` often enough. -/
theorem exists_steps_empty {isNumeric : UInt8 → Bool} {bytes : List UInt8} {ls : List Lexeme}
    (h : Reads isNumeric bytes ls) (hempty : ∃ l ∈ ls, l.text = []) (self : Lexer)
    (hdone : self.done = false) (hrest : self.rest = bytes) :
    ∃ ts last r, Steps (Lexer.next isNumeric) self ts last ∧ last.done = false ∧
      read isNumeric last.rest = some r ∧ r.lexeme.text = [] := by
  induction h generalizing self with
  | done _ =>
    obtain ⟨l, hl, _⟩ := hempty
    cases hl
  | @step bytes r ls hr hne _ ih =>
    subst hrest
    have htail : ∃ l ∈ ls, l.text = [] := by
      obtain ⟨l, hl, hnil⟩ := hempty
      rcases List.mem_cons.mp hl with rfl | hl
      · exact absurd hnil hne
      · exact ⟨l, hl, hnil⟩
    obtain ⟨ts, last, r', hsteps, hlast, hr', hnil⟩ := ih htail (self.after r) hdone (Lexer.rest_after hr)
    exact ⟨_, last, r', .cons (Lexer.next_of_read hdone hr) hsteps, hlast, hr', hnil⟩
  | @stuck bytes r hr hnil =>
    subst hrest
    exact ⟨[], self, r, .nil, hdone, hr, hnil⟩

/-! ### Chapter 6 -/

theorem chapter06_ne_nil {bytes : List UInt8} {r : Reading} (h : read Chapter06.isNumeric bytes = some r)
    (hnine : byte '9' ∉ bytes) : r.lexeme.text ≠ [] := by
  have hread := read_blankZeros hnine
  rw [h] at hread
  exact read_ne_nil (r := blankReading r) hread

/-- Chapter 6's lexer makes progress on an input: from wherever calls of `next` lead, a
call that returns has a token with text and moves past it, and calling ends after at
most as many tokens as the input has bytes. -/
structure MakesProgress (input : List UInt8) : Prop where
  step : ∀ ts self token after, Steps (Lexer.next Chapter06.isNumeric) (Lexer.init input) ts self →
    self.next Chapter06.isNumeric = .ok (token, after) →
    token.start < token.finish ∧ after.index = token.finish ∧ self.index < after.index
  ends : ∃ ts last, Steps (Lexer.next Chapter06.isNumeric) (Lexer.init input) ts last ∧
    last.next Chapter06.isNumeric = .error MissingToken ∧ ts.length ≤ input.length

/-- From wherever calls lead in a text without nines, what is read has text. -/
theorem steps_ne_nil {input : List UInt8} (hnine : byte '9' ∉ input) {ts : List Token} {self : Lexer}
    (hsteps : Steps (Lexer.next Chapter06.isNumeric) (Lexer.init input) ts self) {r : Reading}
    (hr : read Chapter06.isNumeric self.rest = some r) : r.lexeme.text ≠ [] := by
  apply chapter06_ne_nil hr
  intro hmem
  have hinput : self.input = input := Lexer.steps_input hsteps
  rw [Lexer.rest, hinput] at hmem
  exact hnine (List.mem_of_mem_drop hmem)

theorem makesProgress_of_no_nine {input : List UInt8} (hnine : byte '9' ∉ input) : MakesProgress input := by
  constructor
  · intro ts self token after hsteps hnext
    obtain ⟨_, r, hr, rfl, rfl⟩ := Lexer.next_ok hnext
    exact Lexer.token_progress (steps_ne_nil hnine hsteps hr)
  · have hless : ∀ ts self token after, Steps (Lexer.next Chapter06.isNumeric) (Lexer.init input) ts self →
        self.next Chapter06.isNumeric = .ok (token, after) → after.rest.length < self.rest.length := by
      intro ts self token after hsteps hnext
      obtain ⟨_, r, hr, rfl, rfl⟩ := Lexer.next_ok hnext
      rw [Lexer.rest_after hr]
      exact read_length hr (steps_ne_nil hnine hsteps hr)
    obtain ⟨ts, last, e, hsteps, herror, hlen⟩ := exists_final (fun l : Lexer => l.rest.length) hless
    obtain ⟨rfl, _⟩ := Lexer.next_error (Lexer.steps_done hsteps rfl) herror
    exact ⟨ts, last, hsteps, herror, hlen⟩

/-- **Chapter 6's lexer makes progress iff the input has no nine.** -/
theorem lexer_progress_iff (input : List UInt8) : MakesProgress input ↔ byte '9' ∉ input := by
  refine ⟨fun h hnine => ?_, makesProgress_of_no_nine⟩
  obtain ⟨ls, hls⟩ := @exists_reads Chapter06.isNumeric input
  obtain ⟨ts, last, r, hsteps, hdone, hr, hnil⟩ := exists_steps_empty hls
    ⟨_, nine_stuck hls hnine, rfl⟩ (Lexer.init input) rfl (Lexer.rest_init input)
  have hstep := (h.step ts last _ _ hsteps (Lexer.next_of_read hdone hr)).1
  simp only [Lexer.token, hnil, List.length_nil, Nat.add_zero] at hstep
  exact absurd hstep (Nat.lt_irrefl _)

/-- On `9` the lexer returns a token from 0 to 0 and stays at 0. -/
theorem lexer_stays_at_nine :
    (Lexer.init (ascii "9")).next Chapter06.isNumeric = .ok (⟨.Number, 0, 0⟩, Lexer.init (ascii "9")) ∧
      ¬ MakesProgress (ascii "9") := by
  have hnext : (Lexer.init (ascii "9")).next Chapter06.isNumeric =
      .ok (⟨.Number, 0, 0⟩, Lexer.init (ascii "9")) := rfl
  refine ⟨hnext, fun h => ?_⟩
  exact absurd (h.step [] _ _ _ .nil hnext).1 (Nat.lt_irrefl 0)

end CompilingToAssembly
