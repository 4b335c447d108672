import CompilingToAssembly.Parser.Refinement
import CompilingToAssembly.Parser.Spelling
import Mathlib.Data.List.Forall2

/-! Chapter 8's parser and its grammar.

`Phrase` is the grammar of expressions, one rule for each way an expression, a term
or a factor can be formed, with the tree the rule builds:

    program := stmt*
    stmt    := "var" Identifier "=" expr ";"
    expr    := term (("+" | "-") term)*
    term    := factor (("*" | "/") factor)*
    factor  := Number | Identifier | "(" expr ")"

The repetitions are written as left recursion, since that is the tree they stand
for. On the token sequences the lexer produces it is the language of
`Library.Climb` at the parser's precedences (`phrase_iff`), so that
`parse_accepts_grammar` is the refinement of the descent put in these terms. No two
operators of a program are adjacent (`Prog.alternates`). -/
namespace CompilingToAssembly
open Library Climb

inductive Nonterminal where
  | expr | term | factor
deriving DecidableEq, Repr

/-- A token with a fixed text. -/
def punct (kind : TokenType) (text : String) : Lexeme := ⟨kind, ascii text⟩

inductive Phrase : Nonterminal → List Lexeme → Tree (List UInt8) → Prop where
  | number {text} : Phrase .factor [⟨.Number, text⟩] (.number text)
  | identifier {text} : Phrase .factor [⟨.Identifier, text⟩] (.identifier text)
  | parens {u t} : Phrase .expr u t →
      Phrase .factor (punct .LeftParen "(" :: (u ++ [punct .RightParen ")"])) t
  | factor {u t} : Phrase .factor u t → Phrase .term u t
  | product {op u v left right} : op = ascii "*" ∨ op = ascii "/" → Phrase .term u left →
      Phrase .factor v right → Phrase .term (u ++ ⟨.Operator, op⟩ :: v) (.binary op left right)
  | term {u t} : Phrase .term u t → Phrase .expr u t
  | sum {op u v left right} : op = ascii "+" ∨ op = ascii "-" → Phrase .expr u left →
      Phrase .term v right → Phrase .expr (u ++ ⟨.Operator, op⟩ :: v) (.binary op left right)

inductive Stmt : List Lexeme → Statement (List UInt8) → Prop where
  | var {name u t} : Phrase .expr u t →
      Stmt (punct .Identifier "var" :: ⟨.Identifier, name⟩ :: punct .Operator "=" ::
        (u ++ [punct .Semicolon ";"])) ⟨name, t⟩

inductive Prog : List Lexeme → List (Statement (List UInt8)) → Prop where
  | nil : Prog [] []
  | cons {u v s ss} : Stmt u s → Prog v ss → Prog (u ++ v) (s :: ss)

/-- The tokens of `var name = value;`. -/
def declaration (name : List UInt8) (value : List Lexeme) : List Lexeme :=
  punct .Identifier "var" :: ⟨.Identifier, name⟩ :: punct .Operator "=" :: (value ++ [punct .Semicolon ";"])

/-! ### Tokens as the lexer makes them -/

/-- A token that has a precedence is one of the four operators. -/
theorem prec_cases {l : Lexeme} (hc : inClass l.kind l.text = true)
    (hp : 0 < (Descent.operators chapter08).prec l) :
    ∃ op, l = ⟨.Operator, op⟩ ∧
      (((op = ascii "+" ∨ op = ascii "-") ∧ (Descent.operators chapter08).prec l = 1) ∨
        ((op = ascii "*" ∨ op = ascii "/") ∧ (Descent.operators chapter08).prec l = 2)) := by
  obtain ⟨kind, op⟩ := l
  have hk : kind = .Operator := by
    by_contra hk
    rw [Descent.prec_of_kind chapter08 hk] at hp
    exact absurd hp (by decide)
  subst hk
  refine ⟨op, rfl, ?_⟩
  have htable : ∀ op ∈ operators, 0 < (Descent.operators chapter08).prec ⟨.Operator, op⟩ →
      ((op = ascii "+" ∨ op = ascii "-") ∧ (Descent.operators chapter08).prec ⟨.Operator, op⟩ = 1) ∨
        ((op = ascii "*" ∨ op = ascii "/") ∧
          (Descent.operators chapter08).prec ⟨.Operator, op⟩ = 2) := by
    decide +kernel
  exact htable op (List.contains_iff_mem.mp hc) hp

theorem opens_eq {l : Lexeme} (hc : inClass l.kind l.text = true)
    (ho : (Descent.operators chapter08).opens l = true) : l = punct .LeftParen "(" := by
  obtain ⟨kind, text⟩ := l
  obtain rfl : kind = .LeftParen := eq_of_beq ho
  obtain rfl : text = ascii "(" := eq_of_beq hc
  rfl

theorem closes_eq {l : Lexeme} (hc : inClass l.kind l.text = true)
    (ho : (Descent.operators chapter08).closes l = true) : l = punct .RightParen ")" := by
  obtain ⟨kind, text⟩ := l
  obtain rfl : kind = .RightParen := eq_of_beq ho
  obtain rfl : text = ascii ")" := eq_of_beq hc
  rfl

theorem leaf_cases {l : Lexeme} {t : Tree (List UInt8)}
    (h : (Descent.operators chapter08).leaf l = some (.ok t)) : Phrase .factor [l] t := by
  obtain ⟨kind, text⟩ := l
  cases kind with
  | Number => cases h; exact .number
  | Identifier => cases h; exact .identifier
  | _ => cases h

/-! ### The grammar is that of the descent -/

/-- What the parser is asked for when it reads at a threshold. -/
def nonterminal : Nat → Nonterminal
  | 0 => .expr
  | 1 => .term
  | _ => .factor

theorem Phrase.of_factor {u : List Lexeme} {t : Tree (List UInt8)} (h : Phrase .factor u t) (p : Nat) :
    Phrase (nonterminal p) u t :=
  match p with
  | 0 => .term (.factor h)
  | 1 => .factor h
  | _ + 2 => h

theorem phrase_of_derives {p : Nat} {u : List Lexeme} {t : Tree (List UInt8)}
    (h : Derives (Descent.operators chapter08) p u t) (hu : Lexical u) : Phrase (nonterminal p) u t := by
  induction h with
  | leaf hl => exact (leaf_cases hl).of_factor _
  | bracket _ ho hc _ ih =>
    obtain ⟨hopen, hrest⟩ := hu.cons
    obtain ⟨hu, hclose⟩ := hrest.append
    rw [opens_eq hopen ho, closes_eq hclose.cons.1 hc]
    exact (Phrase.parens (ih hu)).of_factor _
  | @node p l u v left right hp _ _ ihl ihr =>
    obtain ⟨hu, hv⟩ := hu.append
    have hleft := ihl hu
    have hright := ihr hv.cons.2
    obtain ⟨op, rfl, ⟨hop, hprec⟩ | ⟨hop, hprec⟩⟩ := prec_cases hv.cons.1 (by omega)
    · rw [hprec] at hp hleft hright
      obtain rfl : p = 0 := by omega
      exact .sum hop hleft hright
    · rw [hprec] at hp hleft hright
      have hproduct : Phrase .term _ _ := .product hop hleft hright
      obtain rfl | rfl : p = 0 ∨ p = 1 := by omega
      · exact .term hproduct
      · exact hproduct

/-- The threshold at which the parser reads a nonterminal. -/
def Nonterminal.threshold : Nonterminal → Nat
  | .expr => 0
  | .term => 1
  | .factor => 2

theorem derives_of_phrase {k : Nonterminal} {u : List Lexeme} {t : Tree (List UInt8)}
    (h : Phrase k u t) : Derives (Descent.operators chapter08) k.threshold u t := by
  induction h with
  | number => exact .leaf rfl
  | identifier => exact .leaf rfl
  | parens _ ih => exact .bracket rfl rfl rfl ih
  | factor _ ih => exact ih.weaken (by decide)
  | term _ ih => exact ih.weaken (by decide)
  | @product op _ _ _ _ hop _ _ ihl ihr =>
    have hprec : (Descent.operators chapter08).prec ⟨.Operator, op⟩ = 2 := by
      rcases hop with rfl | rfl <;> decide
    exact .node (t := (⟨.Operator, op⟩ : Lexeme)) (by rw [hprec]; decide) (by rw [hprec]; exact ihl)
      (by rw [hprec]; exact ihr)
  | @sum op _ _ _ _ hop _ _ ihl ihr =>
    have hprec : (Descent.operators chapter08).prec ⟨.Operator, op⟩ = 1 := by
      rcases hop with rfl | rfl <;> decide
    exact .node (t := (⟨.Operator, op⟩ : Lexeme)) (by rw [hprec]; decide) (by rw [hprec]; exact ihl)
      (by rw [hprec]; exact ihr)

theorem phrase_iff {u : List Lexeme} {t : Tree (List UInt8)} (hu : Lexical u) :
    Phrase .expr u t ↔ Derives (Descent.operators chapter08) 0 u t :=
  ⟨derives_of_phrase, fun h => phrase_of_derives h hu⟩

theorem stmt_iff {u : List Lexeme} {s : Statement (List UInt8)} (hu : Lexical u) :
    Stmt u s ↔ Descent.IsStatement chapter08 u s := by
  constructor
  · rintro ⟨ht⟩
    exact .mk (i := ⟨.Identifier, _⟩) rfl rfl rfl rfl (derives_of_phrase ht)
  · intro h
    cases h with
    | @mk v i e s u t hv hi he hs ht =>
      obtain ⟨hvc, hrest⟩ := hu.cons
      obtain ⟨_, hrest⟩ := hrest.cons
      obtain ⟨hec, hrest⟩ := hrest.cons
      obtain ⟨hvalue, hsc⟩ := hrest.append
      obtain rfl : v = punct .Identifier "var" := by
        obtain ⟨kind, text⟩ := v
        simp only [Descent.isVarWord, Bool.and_eq_true, beq_iff_eq] at hv
        rw [hv.1, hv.2]
        rfl
      obtain ⟨kind, name⟩ := i
      obtain rfl : kind = .Identifier := eq_of_beq hi
      obtain rfl : e = punct .Operator "=" := by
        obtain ⟨kind, text⟩ := e
        obtain rfl : text = ascii "=" := eq_of_beq he
        cases kind with
        | Operator => rfl
        | _ => exact absurd hec (by decide)
      obtain rfl : s = punct .Semicolon ";" := by
        obtain ⟨kind, text⟩ := s
        obtain rfl : kind = .Semicolon := eq_of_beq hs
        obtain rfl : text = ascii ";" := eq_of_beq hsc.cons.1
        rfl
      exact .var ((phrase_iff hvalue).mpr ht)

theorem prog_iff {ls : List Lexeme} {ss : List (Statement (List UInt8))} (hls : Lexical ls) :
    Prog ls ss ↔ Descent.Program chapter08 ls ss := by
  constructor
  · intro h
    induction h with
    | nil => exact .nil
    | cons hs _ ih => exact .cons ((stmt_iff hls.append.1).mp hs) (ih hls.append.2)
  · intro h
    induction h with
    | nil => exact .nil
    | cons hs _ ih => exact .cons ((stmt_iff hls.append.1).mpr hs) (ih hls.append.2)

theorem lexical_declaration {name : List UInt8} (hname : inClass .Identifier name = true) {u : List Lexeme}
    (hu : Lexical u) : Lexical (declaration name u) := by
  have hend : Lexical (u ++ [punct .Semicolon ";"]) :=
    List.forall_mem_append.mpr ⟨hu, List.forall_mem_singleton.mpr (by decide)⟩
  have hequals : Lexical (punct .Operator "=" :: (u ++ [punct .Semicolon ";"])) :=
    List.forall_mem_cons.mpr ⟨by decide, hend⟩
  exact List.forall_mem_cons.mpr ⟨by decide, List.forall_mem_cons.mpr ⟨hname, hequals⟩⟩

/-! ### The numbers of a program -/

/-- The numbers of a tree from left to right. -/
def Tree.numerals : Tree (List UInt8) → List (List UInt8)
  | .number numeral => [numeral]
  | .identifier _ => []
  | .binary _ left right => left.numerals ++ right.numerals

theorem Phrase.numerals_valid {k : Nonterminal} {u : List Lexeme} {t : Tree (List UInt8)}
    (h : Phrase k u t) (hu : Lexical u) : ∀ n ∈ t.numerals, inClass .Number n = true := by
  induction h with
  | number =>
    intro n hn
    obtain rfl := List.mem_singleton.mp hn
    exact hu.cons.1
  | identifier => exact fun n hn => (nomatch hn)
  | parens _ ih => exact ih hu.cons.2.append.1
  | factor _ ih => exact ih hu
  | term _ ih => exact ih hu
  | product _ _ _ ihl ihr =>
    obtain ⟨hl, hr⟩ := hu.append
    exact List.forall_mem_append.mpr ⟨ihl hl, ihr hr.cons.2⟩
  | sum _ _ _ ihl ihr =>
    obtain ⟨hl, hr⟩ := hu.append
    exact List.forall_mem_append.mpr ⟨ihl hl, ihr hr.cons.2⟩

theorem Prog.numerals_valid {ls : List Lexeme} {ss : List (Statement (List UInt8))} (h : Prog ls ss)
    (hls : Lexical ls) : ∀ s ∈ ss, ∀ n ∈ s.value.numerals, inClass .Number n = true := by
  induction h with
  | nil => exact fun s hs => (nomatch hs)
  | cons hs _ ih =>
    obtain ⟨hu, hv⟩ := hls.append
    obtain ⟨ht⟩ := hs
    exact List.forall_mem_cons.mpr
      ⟨ht.numerals_valid hu.cons.2.cons.2.cons.2.append.1, ih hv⟩

/-! ### Operators in programs -/

/-- Operators have one byte, none stands first or last, and no two are adjacent. -/
structure Alternates (u : List Lexeme) : Prop where
  single : ∀ l ∈ u, l.kind = .Operator → l.text.length = 1
  apart : OperatorsApart u
  head : ∀ l ∈ u.head?, l.kind ≠ .Operator
  last : ∀ l ∈ u.getLast?, l.kind ≠ .Operator

namespace Alternates
variable {u v : List Lexeme}

theorem one {l : Lexeme} (h : l.kind ≠ .Operator) : Alternates [l] where
  single := List.forall_mem_singleton.mpr fun hop => absurd hop h
  apart := .singleton l
  head := by rintro _ ⟨⟩; exact h
  last := by rintro _ ⟨⟩; exact h

theorem append (hu : Alternates u) (hv : Alternates v) : Alternates (u ++ v) where
  single := List.forall_mem_append.mpr ⟨hu.single, hv.single⟩
  apart := List.isChain_append.mpr ⟨hu.apart, hv.apart, fun _ _ _ hy _ => hv.head _ hy⟩
  head := by
    intro l hl
    cases u with
    | nil => exact hv.head l hl
    | cons x xs => exact hu.head l hl
  last := by
    intro l hl
    rw [List.getLast?_append] at hl
    rcases Option.or_eq_some_iff.mp hl with hl | ⟨_, hl⟩
    · exact hv.last l hl
    · exact hu.last l hl

/-- An operator of one byte between two non-empty sequences. -/
theorem operator (hu : Alternates u) (hv : Alternates v) (hune : u ≠ []) (hvne : v ≠ []) {op : List UInt8}
    (hop : op.length = 1) : Alternates (u ++ ⟨.Operator, op⟩ :: v) where
  single := List.forall_mem_append.mpr ⟨hu.single, List.forall_mem_cons.mpr ⟨fun _ => hop, hv.single⟩⟩
  apart := by
    refine List.isChain_append.mpr ⟨hu.apart, ?_, fun x hx _ _ hkind => absurd hkind (hu.last x hx)⟩
    exact List.isChain_cons.mpr ⟨fun y hy _ => hv.head y hy, hv.apart⟩
  head := by
    cases u with
    | nil => exact absurd rfl hune
    | cons x xs => exact hu.head
  last := by
    cases v with
    | nil => exact absurd rfl hvne
    | cons y ys =>
      intro l hl
      rw [List.getLast?_append_of_ne_nil _ (List.cons_ne_nil _ _), List.getLast?_cons_cons] at hl
      exact hv.last l hl

end Alternates

theorem Phrase.alternates {k : Nonterminal} {u : List Lexeme} {t : Tree (List UInt8)} (h : Phrase k u t) :
    Alternates u := by
  induction h with
  | number => exact .one fun h => (nomatch h)
  | identifier => exact .one fun h => (nomatch h)
  | parens _ ih =>
    exact (Alternates.one (l := punct .LeftParen "(") (by decide)).append
      (ih.append (.one (l := punct .RightParen ")") (by decide)))
  | factor _ ih => exact ih
  | term _ ih => exact ih
  | @product op _ _ _ _ hop hu hv ihl ihr =>
    have hlen : op.length = 1 := by rcases hop with rfl | rfl <;> rfl
    exact ihl.operator ihr (derives_of_phrase hu).ne_nil (derives_of_phrase hv).ne_nil hlen
  | @sum op _ _ _ _ hop hu hv ihl ihr =>
    have hlen : op.length = 1 := by rcases hop with rfl | rfl <;> rfl
    exact ihl.operator ihr (derives_of_phrase hu).ne_nil (derives_of_phrase hv).ne_nil hlen

theorem Prog.alternates {ls : List Lexeme} {ss : List (Statement (List UInt8))} (h : Prog ls ss) :
    Alternates ls := by
  induction h with
  | nil => exact ⟨fun _ hl => (nomatch hl), .nil, fun _ hl => (nomatch hl), fun _ hl => (nomatch hl)⟩
  | cons hs _ ih =>
    obtain ⟨ht⟩ := hs
    refine Alternates.append ?_ ih
    have hvar : Alternates [punct .Identifier "var"] := .one (by decide)
    have hend : Alternates [punct .Semicolon ";"] := .one (by decide)
    have hname (name : List UInt8) : Alternates [⟨.Identifier, name⟩] := .one fun h => (nomatch h)
    exact (hvar.append (hname _)).operator (ht.alternates.append hend) (by simp) (by simp) rfl

/-! ### The parser -/

namespace Chapter08

/-- What `parse` returns, from the statements it reads. -/
theorem parse_eq (input : List UInt8) :
    parse (Parser.init input) =
      match (Parser.init input).parseStatements chapter08 (input.length + 2) [] with
      | .error e => .error e
      | .ok (items, self) => .ok (self.pushNode (.Block items)) := rfl

theorem exists_parse (input : List UInt8) (h : (parse (Parser.init input)).isOk = true) :
    ∃ root self, parse (Parser.init input) = .ok (root, self) := by
  cases hp : parse (Parser.init input) with
  | error e => rw [hp] at h; cases h
  | ok r => exact ⟨r.1, r.2, rfl⟩

/-- The parser accepts a program and returns its `Block`. -/
theorem parse_of_program {input : List UInt8} {ss : List (Statement (List UInt8))}
    (h : Descent.Program chapter08 (lexemes input) ss) :
    ∃ items, ∃ after : Parser (List UInt8),
      parse (Parser.init input) = .ok (after.pushNode (.Block items)) ∧ Built after.nodes items ss := by
  obtain ⟨items, after, hafter, hbuilt⟩ := (parse_program (reads_lexemes input) ss).mp h
  refine ⟨items, after, ?_, hbuilt⟩
  rw [parse_eq, hafter]

/-- What the parser accepts is a program. -/
theorem program_of_parse {input : List UInt8} {root : Pointer} {self : Parser (List UInt8)}
    (h : parse (Parser.init input) = .ok (root, self)) :
    ∃ ss items, ∃ after : Parser (List UInt8), Descent.Program chapter08 (lexemes input) ss ∧
      (root, self) = after.pushNode (.Block items) ∧ Built after.nodes items ss := by
  have hinit := parseStatements_init chapter08 (reads_lexemes input)
  rw [parse_eq] at h
  cases hp : Descent.program chapter08 (input.length + 2) (input.length + 2) (lexemes input) with
  | error e =>
    rw [hp] at hinit
    simp only at hinit
    rw [hinit] at h
    cases h
  | ok ss =>
    rw [hp] at hinit
    obtain ⟨items, after, hafter, hbuilt⟩ := hinit
    rw [hafter] at h
    cases h
    exact ⟨ss, items, after, Descent.program_sound hp, rfl, hbuilt⟩

theorem isBlock_pushNode {self : Parser (List UInt8)} {items : List (Ast (List UInt8))}
    {ss : List (Statement (List UInt8))} (h : Built self.nodes items ss) :
    IsBlock (self.pushNode (.Block items)).2.nodes (self.pushNode (.Block items)).1 ss :=
  ⟨items, deref_pushNode .., h.vars.imp fun _ _ hv => hv.grows (Follows.pushNode self _).grows⟩

/-- The statements of an accepted input, as its `Block` holds them, are those of its
tokens. -/
theorem program_of_block {input : List UInt8} {root : Pointer} {self : Parser (List UInt8)}
    {ss : List (Statement (List UInt8))} (h : parse (Parser.init input) = .ok (root, self))
    (hss : IsBlock self.nodes root ss) : Descent.Program chapter08 (lexemes input) ss := by
  obtain ⟨ss', items, after, hss', hroot, hbuilt⟩ := program_of_parse h
  cases hroot
  rw [hss.unique (isBlock_pushNode hbuilt)]
  exact hss'

/-- A program read by the descent, and its `Block`. -/
theorem exists_block (input : List UInt8) (ss : List (Statement (List UInt8)))
    (h : Descent.program chapter08 (input.length + 2) (input.length + 2) (lexemes input) = .ok ss) :
    ∃ root self, parse (Parser.init input) = .ok (root, self) ∧ IsBlock self.nodes root ss := by
  obtain ⟨items, after, hparse, hbuilt⟩ := parse_of_program (Descent.program_sound h)
  exact ⟨_, _, hparse, isBlock_pushNode hbuilt⟩

end Chapter08

/-- **The parser accepts exactly its grammar and builds the tree of the derivation.**
It succeeds on an input iff the input's token sequence is a program, and the `Block`
it returns then holds one `Var` for each statement of the program, in order, with the
statement's name and the tree of its value. No other statements derive that sequence. -/
theorem parse_accepts_grammar (input : List UInt8) :
    ((∃ root self, Chapter08.parse (Parser.init input) = .ok (root, self)) ↔
        ∃ ss, Prog (lexemes input) ss) ∧
      ∀ root self, Chapter08.parse (Parser.init input) = .ok (root, self) →
        ∃ ss, Prog (lexemes input) ss ∧ IsBlock self.nodes root ss ∧
          ∀ ss', Prog (lexemes input) ss' → ss' = ss := by
  have hlex := lexical_lexemes input
  refine ⟨⟨?_, ?_⟩, ?_⟩
  · rintro ⟨root, self, h⟩
    obtain ⟨ss, _, _, hss, _⟩ := Chapter08.program_of_parse h
    exact ⟨ss, (prog_iff hlex).mpr hss⟩
  · rintro ⟨ss, hss⟩
    obtain ⟨items, after, h, _⟩ := Chapter08.parse_of_program ((prog_iff hlex).mp hss)
    exact ⟨_, _, h⟩
  · intro root self h
    obtain ⟨ss, items, after, hss, hroot, hbuilt⟩ := Chapter08.program_of_parse h
    cases hroot
    refine ⟨ss, (prog_iff hlex).mpr hss, Chapter08.isBlock_pushNode hbuilt, ?_⟩
    intro ss' hss'
    exact ((prog_iff hlex).mp hss').unique hss

end CompilingToAssembly
