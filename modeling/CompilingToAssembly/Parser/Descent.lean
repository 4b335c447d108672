import CompilingToAssembly.Library.Climb
import CompilingToAssembly.Parser.Parse

/-! The parser on token sequences.

Without its lexer and its node list the parser is a recursive descent over a list
of lexemes that returns trees: precedence climbing (`Library.Climb`) for
expressions, four expected tokens around it for a statement, and statements until
the tokens end. `Program` is the language it reads, and `program_iff` says that it
reads exactly that. -/
namespace CompilingToAssembly.Descent
open Library Climb

variable {ν : Type}

/-- The precedence of a token, by its first byte. -/
def precedence (l : Lexeme) : Precedence :=
  match l.kind with
  | .Operator =>
    match l.text.head? with
    | some c =>
      if c == byte '+' || c == byte '-' then .Sum
      else if c == byte '*' || c == byte '/' then .Product
      else .Lowest
    | none => .Lowest
  | _ => .Lowest

theorem precedence_of_kind {l : Lexeme} (h : l.kind ≠ .Operator) : precedence l = .Lowest := by
  unfold precedence
  split
  · contradiction
  · rfl

/-- Tokens as the expression parser sees them. -/
def operators (ch : Chapter ν) : Operators Lexeme ParseIntError (Tree ν) where
  leaf l :=
    match l.kind with
    | .Number => some ((ch.number l.text).map .number)
    | .Identifier => some (.ok (.identifier l.text))
    | _ => none
  opens l := l.kind == .LeftParen
  closes l := l.kind == .RightParen
  prec l := (precedence l).toU8.toNat
  node l left right := .binary l.text left right
  closes_prec := by
    intro l h
    have hk : l.kind = .RightParen := by simpa using h
    rw [precedence_of_kind (by rw [hk]; decide)]
    rfl

theorem prec_of_kind (ch : Chapter ν) {l : Lexeme} (h : l.kind ≠ .Operator) :
    (operators ch).prec l = 0 := by
  show (precedence l).toU8.toNat = 0
  rw [precedence_of_kind h]
  rfl

/-- The next token, if it is one of those accepted. -/
def expect (accepts : Lexeme → Bool) : List Lexeme → Except Error (Lexeme × List Lexeme)
  | [] => .error .missing
  | l :: ls => if accepts l then .ok (l, ls) else .error .invalid

def isVarWord (l : Lexeme) : Bool := l.kind == .Identifier && l.text == ascii "var"
def isIdentifier (l : Lexeme) : Bool := l.kind == .Identifier
def isEquals (l : Lexeme) : Bool := l.text == ascii "="
def isSemicolon (l : Lexeme) : Bool := l.kind == .Semicolon

/-- What follows the value of a statement. -/
def ended (name : List UInt8) (value : Tree ν) (ls : List Lexeme) :
    Except Error (Statement ν × List Lexeme) :=
  match expect isSemicolon ls with
  | .error e => .error e
  | .ok (_, ls) => .ok (⟨name, value⟩, ls)

variable (ch : Chapter ν)

/-- What follows the `=`. -/
def assigned (n : Nat) (name : List UInt8) (ls : List Lexeme) :
    Except Error (Statement ν × List Lexeme) :=
  match climb (operators ch) n 0 ls with
  | .error e => .error e
  | .ok (value, ls) => ended name value ls

/-- What follows the name. -/
def named (n : Nat) (name : List UInt8) (ls : List Lexeme) :
    Except Error (Statement ν × List Lexeme) :=
  match expect isEquals ls with
  | .error e => .error e
  | .ok (_, ls) => assigned ch n name ls

/-- What follows the `var`. -/
def declared (n : Nat) (ls : List Lexeme) : Except Error (Statement ν × List Lexeme) :=
  match expect isIdentifier ls with
  | .error e => .error e
  | .ok (name, ls) => named ch n name.text ls

def statement (n : Nat) (ls : List Lexeme) : Except Error (Statement ν × List Lexeme) :=
  match expect isVarWord ls with
  | .error e => .error e
  | .ok (_, ls) => declared ch n ls

def program (n : Nat) : Nat → List Lexeme → Except Error (List (Statement ν))
  | 0, _ => .error .fuel
  | _ + 1, [] => .ok []
  | m + 1, l :: ls =>
    match statement ch n (l :: ls) with
    | .error e => .error e
    | .ok (s, rest) =>
      match program n m rest with
      | .error e => .error e
      | .ok ss => .ok (s :: ss)

/-! ### The language -/

/-- The tokens of a statement. -/
inductive IsStatement : List Lexeme → Statement ν → Prop where
  | mk {v i e s u t} : isVarWord v = true → isIdentifier i = true → isEquals e = true →
      isSemicolon s = true → Derives (operators ch) 0 u t →
      IsStatement (v :: i :: e :: (u ++ [s])) ⟨i.text, t⟩

/-- The tokens of a list of statements. -/
inductive Program : List Lexeme → List (Statement ν) → Prop where
  | nil : Program [] []
  | cons {u v s ss} : IsStatement ch u s → Program v ss → Program (u ++ v) (s :: ss)

variable {ch}

theorem IsStatement.ne_nil {u : List Lexeme} {s : Statement ν} (h : IsStatement ch u s) : u ≠ [] := by
  cases h
  simp

theorem Program.append {u v : List Lexeme} {ss ss' : List (Statement ν)} (h : Program ch u ss)
    (h' : Program ch v ss') : Program ch (u ++ v) (ss ++ ss') := by
  induction h with
  | nil => exact h'
  | cons hs _ ih =>
    rw [List.append_assoc]
    exact .cons hs ih

theorem expect_ok {accepts : Lexeme → Bool} {ls rest : List Lexeme} {l : Lexeme}
    (h : expect accepts ls = .ok (l, rest)) : ls = l :: rest ∧ accepts l = true := by
  cases ls with
  | nil => cases h
  | cons l' ls =>
    simp only [expect] at h
    split at h
    · cases h
      exact ⟨rfl, by assumption⟩
    · cases h

theorem isSemicolon_prec {s : Lexeme} (h : isSemicolon s = true) : (operators ch).prec s = 0 := by
  have hk : s.kind = .Semicolon := by simpa [isSemicolon] using h
  exact prec_of_kind ch (by rw [hk]; decide)

theorem assigned_ok {n : Nat} {name : List UInt8} {ls rest : List Lexeme} {st : Statement ν}
    (h : assigned ch n name ls = .ok (st, rest)) :
    ∃ value s, st = ⟨name, value⟩ ∧ isSemicolon s = true ∧
      climb (operators ch) n 0 ls = .ok (value, s :: rest) := by
  unfold assigned at h
  cases hc : climb (operators ch) n 0 ls with
  | error e => rw [hc] at h; cases h
  | ok r =>
    obtain ⟨value, ls'⟩ := r
    rw [hc] at h
    simp only [ended] at h
    cases he : expect isSemicolon ls' with
    | error e => rw [he] at h; cases h
    | ok r =>
      obtain ⟨s, rest'⟩ := r
      rw [he] at h
      cases h
      obtain ⟨rfl, hs⟩ := expect_ok he
      exact ⟨value, s, rfl, hs, rfl⟩

theorem named_ok {n : Nat} {name : List UInt8} {ls rest : List Lexeme} {st : Statement ν}
    (h : named ch n name ls = .ok (st, rest)) :
    ∃ e us, ls = e :: us ∧ isEquals e = true ∧ assigned ch n name us = .ok (st, rest) := by
  unfold named at h
  cases he : expect isEquals ls with
  | error e => rw [he] at h; cases h
  | ok r =>
    obtain ⟨e, us⟩ := r
    rw [he] at h
    obtain ⟨rfl, heq⟩ := expect_ok he
    exact ⟨e, us, rfl, heq, h⟩

theorem named_name {n : Nat} {name : List UInt8} {ls rest : List Lexeme} {st : Statement ν}
    (h : named ch n name ls = .ok (st, rest)) : st.name = name := by
  obtain ⟨_, us, _, _, h⟩ := named_ok h
  obtain ⟨_, _, rfl, _, _⟩ := assigned_ok h
  rfl

/-- What a successful statement saw. -/
theorem statement_ok {n : Nat} {ls rest : List Lexeme} {st : Statement ν}
    (h : statement ch n ls = .ok (st, rest)) :
    ∃ v i e us, ls = v :: i :: e :: us ∧ isVarWord v = true ∧ isIdentifier i = true ∧
      isEquals e = true ∧ assigned ch n i.text us = .ok (st, rest) := by
  unfold statement at h
  cases hv : expect isVarWord ls with
  | error e => rw [hv] at h; cases h
  | ok r =>
    obtain ⟨v, ls₁⟩ := r
    rw [hv] at h
    simp only [declared] at h
    obtain ⟨rfl, hvar⟩ := expect_ok hv
    cases hi : expect isIdentifier ls₁ with
    | error e => rw [hi] at h; cases h
    | ok r =>
      obtain ⟨i, ls₂⟩ := r
      rw [hi] at h
      simp only at h
      obtain ⟨rfl, hid⟩ := expect_ok hi
      obtain ⟨e, us, rfl, heq, h⟩ := named_ok h
      exact ⟨v, i, e, us, rfl, hvar, hid, heq, h⟩

theorem statement_eq {n : Nat} {v i e : Lexeme} {us : List Lexeme} (hv : isVarWord v = true)
    (hi : isIdentifier i = true) (he : isEquals e = true) :
    statement ch n (v :: i :: e :: us) = assigned ch n i.text us := by
  simp [statement, declared, named, expect, hv, hi, he]

theorem statement_sound {n : Nat} {ls rest : List Lexeme} {st : Statement ν}
    (h : statement ch n ls = .ok (st, rest)) : ∃ u, ls = u ++ rest ∧ IsStatement ch u st := by
  obtain ⟨v, i, e, us, rfl, hv, hi, he, h⟩ := statement_ok h
  obtain ⟨value, s, rfl, hs, hc⟩ := assigned_ok h
  obtain ⟨u, rfl, hu, _⟩ := climb_sound n 0 _ _ _ hc
  exact ⟨v :: i :: e :: (u ++ [s]), by simp, .mk hv hi he hs hu⟩

theorem statement_complete {n : Nat} {u rest : List Lexeme} {st : Statement ν}
    (h : IsStatement ch u st) (hn : (u ++ rest).length ≤ n) :
    statement ch n (u ++ rest) = .ok (st, rest) := by
  cases h with
  | @mk v i e s u t hv hi he hs hu =>
    have hshape : v :: i :: e :: (u ++ [s]) ++ rest = v :: i :: e :: (u ++ s :: rest) := by simp
    have hlen : (u ++ s :: rest).length < n := by
      rw [hshape] at hn
      simp only [List.length_cons] at hn
      omega
    have hc := climb_complete hu n (s :: rest) hlen (by rw [top_cons, isSemicolon_prec hs])
    rw [hshape, statement_eq hv hi he, assigned, hc]
    simp [ended, expect, hs]

theorem statement_length {n : Nat} {ls rest : List Lexeme} {st : Statement ν}
    (h : statement ch n ls = .ok (st, rest)) : rest.length < ls.length := by
  obtain ⟨u, rfl, hu⟩ := statement_sound h
  have := List.length_pos_iff.mpr hu.ne_nil
  simp only [List.length_append]
  omega

/-- What a successful parse of a non-empty list saw. -/
theorem program_ok_cons {n m : Nat} {l : Lexeme} {ls : List Lexeme} {ss : List (Statement ν)}
    (h : program ch n (m + 1) (l :: ls) = .ok ss) :
    ∃ s rest ss', statement ch n (l :: ls) = .ok (s, rest) ∧ program ch n m rest = .ok ss' ∧
      ss = s :: ss' := by
  simp only [program] at h
  cases hs : statement ch n (l :: ls) with
  | error e => rw [hs] at h; cases h
  | ok r =>
    obtain ⟨s, rest⟩ := r
    rw [hs] at h
    simp only at h
    cases hp : program ch n m rest with
    | error e => rw [hp] at h; cases h
    | ok ss' =>
      rw [hp] at h
      cases h
      exact ⟨s, rest, ss', rfl, hp, rfl⟩

theorem program_sound {n m : Nat} {ls : List Lexeme} {ss : List (Statement ν)}
    (h : program ch n m ls = .ok ss) : Program ch ls ss := by
  induction m generalizing ls ss with
  | zero => cases h
  | succ m ih =>
    cases ls with
    | nil => cases h; exact .nil
    | cons l ls =>
      obtain ⟨s, rest, ss', hs, hp, rfl⟩ := program_ok_cons h
      obtain ⟨u, hu, hstmt⟩ := statement_sound hs
      rw [hu]
      exact .cons hstmt (ih hp)

theorem program_complete {n m : Nat} {ls : List Lexeme} {ss : List (Statement ν)}
    (h : Program ch ls ss) (hn : ls.length ≤ n) (hm : ls.length < m) :
    program ch n m ls = .ok ss := by
  induction h generalizing m with
  | nil =>
    obtain ⟨k, rfl⟩ : ∃ k, m = k + 1 := ⟨m - 1, by omega⟩
    rfl
  | @cons u v s ss hs _ ih =>
    obtain ⟨k, rfl⟩ : ∃ k, m = k + 1 := ⟨m - 1, by omega⟩
    have hpos := List.length_pos_iff.mpr hs.ne_nil
    have hstmt := statement_complete hs hn
    simp only [List.length_append] at hn hm
    have hrest := ih (m := k) (by omega) (by omega)
    cases huv : u ++ v with
    | nil => simp [hs.ne_nil] at huv
    | cons l ls =>
      rw [huv] at hstmt
      simp only [program, hstmt, hrest]

/-- **The descent reads exactly the language of programs.** -/
theorem program_iff {n m : Nat} {ls : List Lexeme} (hn : ls.length ≤ n) (hm : ls.length < m)
    (ss : List (Statement ν)) : program ch n m ls = .ok ss ↔ Program ch ls ss :=
  ⟨program_sound, fun h => program_complete h hn hm⟩

/-- A token sequence is the program of at most one list of statements. -/
theorem Program.unique {ls : List Lexeme} {ss ss' : List (Statement ν)} (h : Program ch ls ss)
    (h' : Program ch ls ss') : ss = ss' := by
  have := program_complete h (Nat.le_refl _) (Nat.lt_succ_self _)
  rw [program_complete h' (Nat.le_refl _) (Nat.lt_succ_self _)] at this
  cases this
  rfl

/-! ### The errors -/

theorem expect_error {accepts : Lexeme → Bool} {ls : List Lexeme} {e : Error}
    (h : expect accepts ls = .error e) :
    (ls = [] ∧ e = .missing) ∨ ∃ l rest, ls = l :: rest ∧ accepts l = false ∧ e = .invalid := by
  cases ls with
  | nil => cases h; exact .inl ⟨rfl, rfl⟩
  | cons l rest =>
    simp only [expect] at h
    split at h
    · cases h
    · rename_i hno
      cases h
      exact .inr ⟨l, rest, rfl, by simpa using hno, rfl⟩

theorem assigned_error {n : Nat} {name : List UInt8} {ls : List Lexeme} {e : Error}
    (h : assigned ch n name ls = .error e) :
    climb (operators ch) n 0 ls = .error e ∨
      ∃ value rest, climb (operators ch) n 0 ls = .ok (value, rest) ∧
        expect isSemicolon rest = .error e := by
  unfold assigned at h
  cases hc : climb (operators ch) n 0 ls with
  | error e => rw [hc] at h; cases h; exact .inl rfl
  | ok r =>
    obtain ⟨value, rest⟩ := r
    rw [hc] at h
    simp only [ended] at h
    cases he : expect isSemicolon rest with
    | error e => rw [he] at h; cases h; exact .inr ⟨value, rest, rfl, he⟩
    | ok r => rw [he] at h; cases h

/-- A statement fails at one of its four fixed tokens or in its value. -/
theorem statement_error {n : Nat} {ls : List Lexeme} {e : Error}
    (h : statement ch n ls = .error e) :
    e = .invalid ∨ (e = .missing ∧ ls = []) ∨ ∃ v, isVarWord v = true ∧
      ((e = .missing ∧ ls = [v]) ∨ ∃ i, isIdentifier i = true ∧
        ((e = .missing ∧ ls = [v, i]) ∨ ∃ q us, isEquals q = true ∧ ls = v :: i :: q :: us ∧
          assigned ch n i.text us = .error e)) := by
  unfold statement at h
  cases hv : expect isVarWord ls with
  | error e =>
    rw [hv] at h
    cases h
    rcases expect_error hv with ⟨rfl, rfl⟩ | ⟨_, _, _, _, rfl⟩
    · exact .inr (.inl ⟨rfl, rfl⟩)
    · exact .inl rfl
  | ok r =>
    obtain ⟨v, ls₁⟩ := r
    rw [hv] at h
    simp only [declared] at h
    obtain ⟨rfl, hvar⟩ := expect_ok hv
    cases hi : expect isIdentifier ls₁ with
    | error e =>
      rw [hi] at h
      cases h
      rcases expect_error hi with ⟨rfl, rfl⟩ | ⟨_, _, _, _, rfl⟩
      · exact .inr (.inr ⟨v, hvar, .inl ⟨rfl, rfl⟩⟩)
      · exact .inl rfl
    | ok r =>
      obtain ⟨i, ls₂⟩ := r
      rw [hi] at h
      simp only [named] at h
      obtain ⟨rfl, hid⟩ := expect_ok hi
      cases hq : expect isEquals ls₂ with
      | error e =>
        rw [hq] at h
        cases h
        rcases expect_error hq with ⟨rfl, rfl⟩ | ⟨_, _, _, _, rfl⟩
        · exact .inr (.inr ⟨v, hvar, .inr ⟨i, hid, .inl ⟨rfl, rfl⟩⟩⟩)
        · exact .inl rfl
      | ok r =>
        obtain ⟨q, us⟩ := r
        rw [hq] at h
        obtain ⟨rfl, heq⟩ := expect_ok hq
        exact .inr (.inr ⟨v, hvar, .inr ⟨i, hid, .inr ⟨q, us, heq, rfl, h⟩⟩⟩)

theorem program_error {n m : Nat} {ls : List Lexeme} {e : Error}
    (h : program ch n (m + 1) ls = .error e) :
    statement ch n ls = .error e ∨
      ∃ s rest, statement ch n ls = .ok (s, rest) ∧ program ch n m rest = .error e := by
  cases ls with
  | nil => cases h
  | cons l ls =>
    simp only [program] at h
    cases hs : statement ch n (l :: ls) with
    | error e => rw [hs] at h; cases h; exact .inl rfl
    | ok r =>
      obtain ⟨s, rest⟩ := r
      rw [hs] at h
      simp only at h
      cases hp : program ch n m rest with
      | error e => rw [hp] at h; cases h; exact .inr ⟨s, rest, rfl, hp⟩
      | ok ss => rw [hp] at h; cases h

/-- The budget is never spent. -/
theorem program_fuel {n m : Nat} {ls : List Lexeme} (hn : ls.length ≤ n) (hm : ls.length < m) :
    program ch n m ls ≠ .error .fuel := by
  induction m generalizing ls with
  | zero => omega
  | succ m ih =>
    intro h
    rcases program_error h with hs | ⟨s, rest, hs, hp⟩
    · rcases statement_error hs with he | ⟨he, _⟩ | ⟨_, _, ⟨he, _⟩ | ⟨_, _, ⟨he, _⟩ | ⟨_, us, _, rfl, ha⟩⟩⟩
      · cases he
      · cases he
      · cases he
      · cases he
      · simp only [List.length_cons] at hn
        rcases assigned_error ha with hc | ⟨_, rest, _, hsemi⟩
        · exact climb_fuel (by omega) hc
        · rcases expect_error hsemi with ⟨_, he⟩ | ⟨_, _, _, _, he⟩ <;> cases he
    · have := statement_length hs
      exact ih (by omega) (by omega) hp

/-- A number's error is that of some token's text. -/
theorem program_leaf {n m : Nat} {ls : List Lexeme} {e : ParseIntError}
    (h : program ch n m ls = .error (.leaf e)) :
    ∃ l ∈ ls, l.kind = .Number ∧ ch.number l.text = .error e := by
  induction m generalizing ls with
  | zero => cases h
  | succ m ih =>
    rcases program_error h with hs | ⟨s, rest, hs, hp⟩
    · rcases statement_error hs with he | ⟨he, _⟩ | ⟨v, _, ⟨he, _⟩ | ⟨i, _, ⟨he, _⟩ | ⟨q, us, _, rfl, ha⟩⟩⟩
      · cases he
      · cases he
      · cases he
      · cases he
      · rcases assigned_error ha with hc | ⟨_, rest, _, hsemi⟩
        · obtain ⟨l, hl, hleaf⟩ := climb_leaf hc
          refine ⟨l, by simp [hl], ?_⟩
          simp only [operators] at hleaf
          split at hleaf
          · rename_i hk
            refine ⟨hk, ?_⟩
            cases hnum : ch.number l.text with
            | error e' => rw [hnum] at hleaf; cases hleaf; rfl
            | ok value => rw [hnum] at hleaf; cases hleaf
          · cases hleaf
          · cases hleaf
        · rcases expect_error hsemi with ⟨_, he⟩ | ⟨_, _, _, _, he⟩ <;> cases he
    · obtain ⟨u, rfl, _⟩ := statement_sound hs
      obtain ⟨l, hl, hnum⟩ := ih hp
      exact ⟨l, List.mem_append_right _ hl, hnum⟩

end CompilingToAssembly.Descent
