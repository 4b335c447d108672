import CompilingToAssembly.Parser.Lexer

/-! The lexer without positions.

What `Lexer.next` returns depends only on the bytes from its index on: some bytes
stepped over, the text of a token, and the rest. `read` is that view, on byte
strings, and `next_read` says that the lexer is `read` with positions added.
`Reads bytes ls` is what repeated calls see: the token sequence `ls`, which ends
either with the input or, where a token takes no byte, at a token on which the
lexer stays for ever. -/
namespace CompilingToAssembly
open Library

variable {isNumeric : UInt8 → Bool}

/-- The token that starts at a byte, and what is left after it. -/
def first (isNumeric : UInt8 → Bool) (ch : UInt8) (rest : List UInt8) :
    Option (Lexeme × List UInt8) :=
  match prong ch with
  | .identifier =>
    some (⟨.Identifier, (ch :: rest).takeWhile (Lexer.identifierByte isNumeric)⟩,
      (ch :: rest).dropWhile (Lexer.identifierByte isNumeric))
  | .number => some (⟨.Number, (ch :: rest).takeWhile isNumeric⟩, (ch :: rest).dropWhile isNumeric)
  | .single tokenType => some (⟨tokenType, [ch]⟩, rest)
  | .operator second =>
    match rest with
    | c2 :: rest' =>
      if second.contains c2 then some (⟨.Operator, [ch, c2]⟩, rest')
      else some (⟨.Operator, [ch]⟩, c2 :: rest')
    | [] => some (⟨.Operator, [ch]⟩, [])
  | .skip => none

/-- The bytes stepped over, the token, and the rest of the input. -/
structure Reading where
  skipped : List UInt8
  lexeme : Lexeme
  rest : List UInt8

def read (isNumeric : UInt8 → Bool) : List UInt8 → Option Reading
  | [] => none
  | ch :: rest =>
    match first isNumeric ch rest with
    | some (lexeme, rest) => some ⟨[], lexeme, rest⟩
    | none =>
      match read isNumeric rest with
      | some r => some { r with skipped := ch :: r.skipped }
      | none => none

theorem first_eq_none {ch : UInt8} {rest : List UInt8} :
    first isNumeric ch rest = none ↔ prong ch = .skip := by
  unfold first
  cases prong ch with
  | operator second =>
    cases rest with
    | nil => simp
    | cons c2 rest => by_cases h : c2 ∈ second <;> simp [h]
  | _ => simp

theorem prong_number (ch : UInt8) : prong ch = .number ↔ between '1' '9' ch = true :=
  forall_byte (P := fun ch => prong ch = .number ↔ between '1' '9' ch = true) (by decide +kernel) ch

theorem identifierByte_of_prong {ch : UInt8} (h : prong ch = .identifier) :
    Lexer.identifierByte isNumeric ch = true := by
  have hstart := forall_byte (P := fun ch => prong ch = .identifier →
    (ch == byte '_' || isAlphabetic ch) = true) (by decide +kernel) ch h
  simp [Lexer.identifierByte, hstart]

/-- What a token can be, by the arm its first byte selects. -/
theorem first_cases {ch : UInt8} {rest rest' : List UInt8} {l : Lexeme}
    (h : first isNumeric ch rest = some (l, rest')) :
    (prong ch = .identifier ∧
        l = ⟨.Identifier, ch :: rest.takeWhile (Lexer.identifierByte isNumeric)⟩ ∧
        rest' = rest.dropWhile (Lexer.identifierByte isNumeric)) ∨
      (prong ch = .number ∧ l = ⟨.Number, (ch :: rest).takeWhile isNumeric⟩ ∧
        rest' = (ch :: rest).dropWhile isNumeric) ∨
      (∃ kind, prong ch = .single kind ∧ l = ⟨kind, [ch]⟩ ∧ rest' = rest) ∨
      ∃ second, prong ch = .operator second ∧
        ((l = ⟨.Operator, [ch]⟩ ∧ rest' = rest ∧ ∀ c2 ∈ rest.head?, second.contains c2 = false) ∨
          ∃ c2, second.contains c2 = true ∧ l = ⟨.Operator, [ch, c2]⟩ ∧ rest = c2 :: rest') := by
  unfold first at h
  cases hp : prong ch with
  | identifier =>
    rw [hp] at h
    cases h
    have hb : Lexer.identifierByte isNumeric ch = true := identifierByte_of_prong hp
    exact .inl ⟨rfl, by rw [List.takeWhile_cons_of_pos hb], by rw [List.dropWhile_cons_of_pos hb]⟩
  | number =>
    rw [hp] at h
    cases h
    exact .inr (.inl ⟨rfl, rfl, rfl⟩)
  | single kind =>
    rw [hp] at h
    cases h
    exact .inr (.inr (.inl ⟨kind, rfl, rfl, rfl⟩))
  | operator second =>
    rw [hp] at h
    refine .inr (.inr (.inr ⟨second, rfl, ?_⟩))
    cases rest with
    | nil =>
      cases h
      exact .inl ⟨rfl, rfl, fun c2 hc2 => by cases hc2⟩
    | cons c2 rest =>
      simp only at h
      split at h
      · rename_i hc
        cases h
        exact .inr ⟨c2, hc, rfl, rfl⟩
      · rename_i hc
        cases h
        refine .inl ⟨rfl, rfl, ?_⟩
        rintro _ ⟨⟩
        simpa using hc
  | skip => rw [hp] at h; cases h

theorem first_number {ch : UInt8} {rest rest' : List UInt8} {l : Lexeme} (hp : prong ch = .number)
    (h : first isNumeric ch rest = some (l, rest')) : l = ⟨.Number, (ch :: rest).takeWhile isNumeric⟩ := by
  unfold first at h
  rw [hp] at h
  cases h
  rfl

/-- An operator that no second byte extends. -/
theorem first_operator_alone {ch : UInt8} {rest rest' : List UInt8} {l : Lexeme} (hp : prong ch = .operator [])
    (h : first isNumeric ch rest = some (l, rest')) : l = ⟨.Operator, [ch]⟩ := by
  unfold first at h
  rw [hp] at h
  cases rest with
  | nil => cases h; rfl
  | cons c2 rest => cases h; rfl

theorem first_append {ch : UInt8} {rest rest' : List UInt8} {l : Lexeme}
    (h : first isNumeric ch rest = some (l, rest')) : ch :: rest = l.text ++ rest' := by
  rcases first_cases h with ⟨_, rfl, rfl⟩ | ⟨_, rfl, rfl⟩ | ⟨_, _, rfl, rfl⟩ |
    ⟨_, _, ⟨rfl, rfl, _⟩ | ⟨_, _, rfl, rfl⟩⟩
  · simp
  · exact (List.takeWhile_append_dropWhile ..).symm
  · rfl
  · rfl
  · rfl

/-- Only a number can be empty. -/
theorem first_text_nil {ch : UInt8} {rest rest' : List UInt8} {l : Lexeme}
    (h : first isNumeric ch rest = some (l, rest')) (hnil : l.text = []) :
    prong ch = .number ∧ l = ⟨.Number, []⟩ := by
  rcases first_cases h with ⟨_, rfl, _⟩ | ⟨hp, rfl, _⟩ | ⟨_, _, rfl, _⟩ |
    ⟨_, _, ⟨rfl, _⟩ | ⟨_, _, rfl, _⟩⟩
  · cases hnil
  · exact ⟨hp, by rw [Lexeme.mk.injEq]; exact ⟨rfl, hnil⟩⟩
  · cases hnil
  · cases hnil
  · cases hnil

/-- What a successful `read` saw. -/
theorem read_eq_some {bytes : List UInt8} {r : Reading} (h : read isNumeric bytes = some r) :
    (∀ b ∈ r.skipped, prong b = .skip) ∧
      ∃ ch tail, bytes = r.skipped ++ ch :: tail ∧ first isNumeric ch tail = some (r.lexeme, r.rest) := by
  induction bytes generalizing r with
  | nil => cases h
  | cons ch rest ih =>
    simp only [read] at h
    cases hf : first isNumeric ch rest with
    | some found =>
      rw [hf] at h
      cases h
      exact ⟨fun b hb => absurd hb List.not_mem_nil, ch, rest, rfl, hf⟩
    | none =>
      rw [hf] at h
      cases hr : read isNumeric rest with
      | none => rw [hr] at h; cases h
      | some r' =>
        rw [hr] at h
        cases h
        obtain ⟨hskip, c, tail, hrest, hc⟩ := ih hr
        refine ⟨?_, c, tail, by rw [hrest]; rfl, hc⟩
        intro b hb
        rcases List.mem_cons.mp hb with rfl | hb
        · exact first_eq_none.mp hf
        · exact hskip b hb

theorem read_of_first {skipped tail rest : List UInt8} {ch : UInt8} {l : Lexeme}
    (hskip : ∀ b ∈ skipped, prong b = .skip) (h : first isNumeric ch tail = some (l, rest)) :
    read isNumeric (skipped ++ ch :: tail) = some ⟨skipped, l, rest⟩ := by
  induction skipped with
  | nil => simp [read, h]
  | cons b bs ih =>
    have hb : first isNumeric b (bs ++ ch :: tail) = none :=
      first_eq_none.mpr (hskip b (List.mem_cons_self ..))
    rw [List.cons_append, read, hb, ih (fun c hc => hskip c (List.mem_cons_of_mem _ hc))]

theorem read_eq_none {bytes : List UInt8} :
    read isNumeric bytes = none ↔ ∀ b ∈ bytes, prong b = .skip := by
  induction bytes with
  | nil => simp [read]
  | cons ch rest ih =>
    cases hf : first isNumeric ch rest with
    | some found =>
      have hne : prong ch ≠ .skip := fun hs => by rw [first_eq_none.mpr hs] at hf; cases hf
      simp [read, hf, hne]
    | none =>
      have hs := first_eq_none.mp hf
      cases hr : read isNumeric rest with
      | none =>
        have hall := ih.mp hr
        simp only [read, hf, hr, List.mem_cons, forall_eq_or_imp, true_iff]
        exact ⟨hs, hall⟩
      | some r =>
        have hnot : ¬ ∀ b ∈ rest, prong b = .skip := fun hall => by rw [ih.mpr hall] at hr; cases hr
        simp only [read, hf, hr, List.mem_cons, forall_eq_or_imp, reduceCtorEq, false_iff]
        exact fun hall => hnot hall.2

theorem read_append {bytes : List UInt8} {r : Reading} (h : read isNumeric bytes = some r) :
    bytes = r.skipped ++ (r.lexeme.text ++ r.rest) := by
  obtain ⟨_, ch, tail, hbytes, hf⟩ := read_eq_some h
  rw [hbytes, first_append hf]

theorem read_skip {skipped bytes : List UInt8} (hskip : ∀ b ∈ skipped, prong b = .skip) :
    read isNumeric (skipped ++ bytes) =
      (read isNumeric bytes).map fun r => { r with skipped := skipped ++ r.skipped } := by
  induction skipped with
  | nil => simp
  | cons b bs ih =>
    have hb : first isNumeric b (bs ++ bytes) = none :=
      first_eq_none.mpr (hskip b (List.mem_cons_self ..))
    rw [List.cons_append, read, hb, ih (fun c hc => hskip c (List.mem_cons_of_mem _ hc))]
    cases read isNumeric bytes <;> rfl

/-! ### The lexer is `read` with positions -/

theorem scanWhile_eq (keep : UInt8 → Bool) (bytes : List UInt8) (index : Nat) :
    Lexer.scanWhile keep bytes index = index + (bytes.takeWhile keep).length := by
  induction bytes generalizing index with
  | nil => rfl
  | cons c rest ih =>
    simp only [Lexer.scanWhile, List.takeWhile_cons]
    split
    · rw [ih, List.length_cons]
      omega
    · rfl

theorem scan_first {ch : UInt8} {rest rest' : List UInt8} {l : Lexeme} (index : Nat)
    (h : first isNumeric ch rest = some (l, rest')) :
    Lexer.scan isNumeric (ch :: rest) index = .ok ⟨l.kind, index, index + l.text.length⟩ := by
  unfold Lexer.scan
  rcases first_cases h with ⟨hp, rfl, _⟩ | ⟨hp, rfl, _⟩ | ⟨_, hp, rfl, _⟩ |
    ⟨second, hp, ⟨rfl, _, hno⟩ | ⟨c2, hc2, rfl, rfl⟩⟩
  · rw [hp, scanWhile_eq, List.takeWhile_cons_of_pos (identifierByte_of_prong hp)]
  · simp only [hp, scanWhile_eq]
  · rw [hp]
    rfl
  · rw [hp]
    cases rest with
    | nil => rfl
    | cons c2 rest =>
      have := hno c2 rfl
      simp only [this]
      rfl
  · rw [hp]
    simp only [hc2]
    rfl

/-- The outer loop finds what `read` finds, at the index it found it at. -/
theorem scan_read (bytes : List UInt8) (index : Nat) :
    Lexer.scan isNumeric bytes index =
      match read isNumeric bytes with
      | none => .error MissingToken
      | some r => .ok ⟨r.lexeme.kind, index + r.skipped.length,
          index + r.skipped.length + r.lexeme.text.length⟩ := by
  induction bytes generalizing index with
  | nil => rfl
  | cons ch rest ih =>
    simp only [read]
    cases hf : first isNumeric ch rest with
    | some found => exact scan_first index hf
    | none =>
      have hscan : Lexer.scan isNumeric (ch :: rest) index = Lexer.scan isNumeric rest (index + 1) := by
        rw [Lexer.scan, first_eq_none.mp hf]
      rw [hscan, ih]
      cases read isNumeric rest with
      | none => rfl
      | some r =>
        simp only [List.length_cons, Except.ok.injEq, Token.mk.injEq, true_and]
        omega

namespace Lexer

/-- The bytes still to be read. -/
def rest (self : Lexer) : List UInt8 := self.input.drop self.index

/-- The lexer after `width` more bytes. -/
def advance (self : Lexer) (width : Nat) : Lexer := { self with index := self.index + width }

@[simp] theorem rest_init (input : List UInt8) : (init input).rest = input := rfl
@[simp] theorem advance_input (self : Lexer) (width : Nat) : (self.advance width).input = self.input := rfl
@[simp] theorem advance_done (self : Lexer) (width : Nat) : (self.advance width).done = self.done := rfl
@[simp] theorem advance_index (self : Lexer) (width : Nat) :
    (self.advance width).index = self.index + width := rfl

theorem advance_rest (self : Lexer) (width : Nat) : (self.advance width).rest = self.rest.drop width := by
  simp [rest, advance, Nat.add_comm]

/-- The token of a reading that starts at the lexer's index. -/
def token (self : Lexer) (r : Reading) : Token :=
  ⟨r.lexeme.kind, self.index + r.skipped.length, self.index + r.skipped.length + r.lexeme.text.length⟩

/-- The lexer after a reading. -/
def after (self : Lexer) (r : Reading) : Lexer := self.advance (r.skipped.length + r.lexeme.text.length)

theorem next_read (self : Lexer) (hdone : self.done = false) :
    self.next isNumeric =
      match read isNumeric self.rest with
      | none => .error MissingToken
      | some r => .ok (self.token r, self.after r) := by
  unfold next
  rw [hdone, scan_read]
  cases hr : read isNumeric self.rest with
  | none =>
    have hr' : read isNumeric (List.drop self.index self.input) = none := hr
    rw [hr']
    rfl
  | some r =>
    have hr' : read isNumeric (List.drop self.index self.input) = some r := hr
    rw [hr']
    simp only [Bool.false_eq_true, if_false, token, after, advance, Nat.add_assoc,
      hdone]

theorem peek_read (self : Lexer) (hdone : self.done = false) :
    self.peek isNumeric = (read isNumeric self.rest).map self.token := by
  unfold peek
  rw [next_read self hdone]
  cases read isNumeric self.rest <;> rfl

variable {self : Lexer} {r : Reading}

theorem rest_after (h : read isNumeric self.rest = some r) : (self.after r).rest = r.rest := by
  have := read_append h
  rw [after, advance_rest, this, List.drop_append]
  simp

/-- From the token's start on the input reads its text and what follows it. -/
theorem drop_token_start (h : read isNumeric self.rest = some r) :
    self.input.drop (self.token r).start = r.lexeme.text ++ r.rest := by
  show self.input.drop (self.index + r.skipped.length) = _
  rw [← List.drop_drop]
  show List.drop r.skipped.length self.rest = _
  rw [read_append h]
  simp

theorem lexeme_token (h : read isNumeric self.rest = some r) : self.lexeme (self.token r) = r.lexeme := by
  simp only [lexeme, slice, drop_token_start h]
  simp [token]

/-- A token depends on the input alone, not on where the lexer stands. -/
theorem lexeme_after (self : Lexer) (r : Reading) : (self.after r).lexeme = self.lexeme := rfl

end Lexer

/-! ### Token sequences -/

/-- What repeated calls of `next` see. A token without text is seen again by every
later call, so the sequence ends with it. -/
inductive Reads (isNumeric : UInt8 → Bool) : List UInt8 → List Lexeme → Prop where
  | done {bytes} : read isNumeric bytes = none → Reads isNumeric bytes []
  | step {bytes r ls} : read isNumeric bytes = some r → r.lexeme.text ≠ [] →
      Reads isNumeric r.rest ls → Reads isNumeric bytes (r.lexeme :: ls)
  | stuck {bytes r} : read isNumeric bytes = some r → r.lexeme.text = [] →
      Reads isNumeric bytes [r.lexeme]

theorem read_length {bytes : List UInt8} {r : Reading} (h : read isNumeric bytes = some r)
    (hne : r.lexeme.text ≠ []) : r.rest.length < bytes.length := by
  have hpos := List.length_pos_iff.mpr hne
  have := congrArg List.length (read_append h)
  simp only [List.length_append] at this
  omega

/-- Every input has a token sequence. -/
theorem exists_reads (bytes : List UInt8) : ∃ ls, Reads isNumeric bytes ls := by
  induction hn : bytes.length using Nat.strongRecOn generalizing bytes with
  | ind n ih =>
    cases hr : read isNumeric bytes with
    | none => exact ⟨[], .done hr⟩
    | some r =>
      by_cases hne : r.lexeme.text = []
      · exact ⟨_, .stuck hr hne⟩
      · obtain ⟨ls, hls⟩ := ih r.rest.length (hn ▸ read_length hr hne) r.rest rfl
        exact ⟨_, .step hr hne hls⟩

/-- And only one. -/
theorem Reads.unique {bytes : List UInt8} {ls ls' : List Lexeme} (h : Reads isNumeric bytes ls)
    (h' : Reads isNumeric bytes ls') : ls = ls' := by
  induction h generalizing ls' with
  | done hr =>
    cases h' with
    | done _ => rfl
    | step hr' _ _ => rw [hr] at hr'; cases hr'
    | stuck hr' _ => rw [hr] at hr'; cases hr'
  | step hr hne _ ih =>
    cases h' with
    | done hr' => rw [hr] at hr'; cases hr'
    | step hr' _ hls =>
      rw [hr] at hr'
      cases hr'
      rw [ih hls]
    | stuck hr' he =>
      rw [hr] at hr'
      cases hr'
      exact absurd he hne
  | stuck hr he =>
    cases h' with
    | done hr' => rw [hr] at hr'; cases hr'
    | step hr' hne _ =>
      rw [hr] at hr'
      cases hr'
      exact absurd he hne
    | stuck hr' _ =>
      rw [hr] at hr'
      cases hr'
      rfl

theorem Reads.length_le {bytes : List UInt8} {ls : List Lexeme} (h : Reads isNumeric bytes ls) :
    ls.length ≤ bytes.length + 1 := by
  induction h with
  | done _ => exact Nat.zero_le _
  | step hr hne _ ih =>
    have := read_length hr hne
    simp only [List.length_cons]
    omega
  | stuck _ _ => simp

end CompilingToAssembly
