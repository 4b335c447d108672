import CompilingToAssembly.Assembler.Generator
import CompilingToAssembly.Parser.Boundaries

/-! Numerals from their value to the emitted literal.

`canonical n` in any operand position of an expression, spelled with any whitespace, is
read as one number whose text is copied into the `mov`. The zero is the exception: no
number starts with the digit that it is made of (`literal_round_trip_iff`). -/
namespace CompilingToAssembly
open Library

/-! ### Canonical numerals -/

theorem digit_bytes : ∀ d < 10, isDigit (byte d.digitChar) = true ∧
    (d ≠ 0 → between '1' '9' (byte d.digitChar) = true) := by decide +kernel

theorem inClass_canonical {n : Nat} (h : n ≠ 0) : inClass .Number (canonical n) = true := by
  induction n using Nat.strongRecOn with
  | ind n ih =>
    by_cases hlt : n < 10
    · simp [canonical_of_lt hlt, inClass, (digit_bytes n hlt).2 h]
    · have hprefix := ih (n / 10) (by omega) (by omega)
      have hdigit := (digit_bytes (n % 10) (by omega)).1
      rw [canonical_of_ge (Nat.le_of_not_lt hlt)]
      cases hc : canonical (n / 10) with
      | nil => rw [hc, inClass_nil] at hprefix; cases hprefix
      | cons c w =>
        rw [hc] at hprefix
        simp only [inClass, Bool.and_eq_true] at hprefix
        simp [inClass, hprefix.1, hprefix.2, hdigit]

/-! ### Operand positions -/

/-- An expression with one operand left open. -/
inductive Hole where
  | here
  | left (hole : Hole) (op : List UInt8) (r : Tree (List UInt8))
  | right (l : Tree (List UInt8)) (op : List UInt8) (hole : Hole)

namespace Hole

def fill : Hole → Tree (List UInt8) → Tree (List UInt8)
  | .here, t => t
  | .left hole op r, t => .binary op (hole.fill t) r
  | .right l op hole, t => .binary op l (hole.fill t)

/-- The operators are the four and the other leaves tokens. -/
def isPrintable : Hole → Bool
  | .here => true
  | .left hole op r => arithmetic.contains op && hole.isPrintable && r.isPrintable
  | .right l op hole => arithmetic.contains op && l.isPrintable && hole.isPrintable

theorem fill_isPrintable {hole : Hole} {t : Tree (List UInt8)} (h : hole.isPrintable = true)
    (ht : t.isPrintable = true) : (hole.fill t).isPrintable = true := by
  induction hole with
  | here => exact ht
  | left hole op r ih =>
    simp only [isPrintable, Bool.and_eq_true] at h
    simp only [fill, Tree.isPrintable, h.1.1, ih h.1.2, h.2, Bool.and_self]
  | right l op hole ih =>
    simp only [isPrintable, Bool.and_eq_true] at h
    simp only [fill, Tree.isPrintable, h.1.1, h.1.2, ih h.2, Bool.and_self]

theorem mem_numerals_fill (hole : Hole) (d : List UInt8) : d ∈ (hole.fill (.number d)).numerals := by
  induction hole with
  | here => exact List.mem_singleton_self d
  | left hole op r ih => exact List.mem_append_left _ ih
  | right l op hole ih => exact List.mem_append_right _ ih

end Hole

/-- The way from a node to the open operand, along the pointers of the nodes. -/
inductive Leads (nodes : ArrayList (Ast (List UInt8))) : Hole → Pointer → Pointer → Prop where
  | here {p} : Leads nodes .here p p
  | left {p q hole op l r t} : nodes.deref p = some (.BinaryOperator op l r) → Leads nodes hole l q →
      Leads nodes (.left hole op t) p q
  | right {p q hole op l r t} : nodes.deref p = some (.BinaryOperator op l r) → Leads nodes hole r q →
      Leads nodes (.right t op hole) p q

theorem Denotes.leads {nodes : ArrayList (Ast (List UInt8))} {hole : Hole} {p : Pointer} {d : List UInt8}
    (h : Denotes nodes p (hole.fill (.number d))) :
    ∃ q, Leads nodes hole p q ∧ nodes.deref q = some (.Number d) := by
  induction hole generalizing p with
  | here =>
    cases h with
    | number _ hd => exact ⟨p, .here, hd⟩
  | left hole op r ih =>
    cases h with
    | binary _ hd hl _ =>
      obtain ⟨q, hq, hnode⟩ := ih hl
      exact ⟨q, .left hd hq, hnode⟩
  | right l op hole ih =>
    cases h with
    | binary _ hd _ hr =>
      obtain ⟨q, hq, hnode⟩ := ih hr
      exact ⟨q, .right hd hq, hnode⟩

/-! ### Statements -/

/-- The text is accepted as the one statement that has the name and the expression, with
`d` in the open operand; and the node there is the number `d`, for which `asmNumber` emits
a `mov` of `d`. -/
def RoundTrips (name d : List UInt8) (hole : Hole) (text : List UInt8) : Prop :=
  ∃ root self identifier value q node,
    Chapter08.parse (Parser.init text) = .ok (root, self) ∧
    self.nodes.deref root = some (.Block [.Var identifier value]) ∧
    Denotes self.nodes identifier (.identifier name) ∧ Denotes self.nodes value (hole.fill (.number d)) ∧
    Leads self.nodes hole value q ∧ self.nodes.deref q = some node ∧ node = .Number d ∧
    ∀ list, asmNumber list node = .ok (list ++ (ascii "\tmov x0, #" ++ d ++ ascii "\n"))

theorem roundTrips_of_block {name d text : List UInt8} {hole : Hole} {root : Pointer} {self : Parser (List UInt8)}
    (h : Chapter08.parse (Parser.init text) = .ok (root, self))
    (hblock : IsBlock self.nodes root [⟨name, hole.fill (.number d)⟩]) : RoundTrips name d hole text := by
  obtain ⟨items, hitems, hvars⟩ := hblock
  cases hvars with
  | cons hvar hnil =>
    cases hnil
    cases hvar with
    | @mk identifier value _ hname hvalue =>
      obtain ⟨q, hleads, hnode⟩ := hvalue.leads
      exact ⟨root, self, identifier, value, q, _, h, hitems, hname, hvalue, hleads, hnode, rfl, fun _ => rfl⟩

theorem RoundTrips.inClass {name d text : List UInt8} {hole : Hole} (h : RoundTrips name d hole text) :
    inClass .Number d = true := by
  obtain ⟨root, self, identifier, value, _, _, hparse, hroot, hname, hvalue, _⟩ := h
  have hblock : IsBlock self.nodes root [⟨name, hole.fill (.number d)⟩] :=
    ⟨_, hroot, .cons ⟨hname, hvalue⟩ .nil⟩
  have hlex := lexical_lexemes text
  have hprog := (prog_iff hlex).mpr (Chapter08.program_of_block hparse hblock)
  exact hprog.numerals_valid hlex _ (List.mem_singleton_self _) d (hole.mem_numerals_fill d)

/-- A rendering between the tokens of a declaration is a program. -/
theorem prog_declaration {name : List UInt8} {t : Tree (List UInt8)} {w : Bool} {u : List Lexeme}
    (ht : t.isPrintable = true) (hu : Rendering t w u) : Prog (declaration name u) [⟨name, t⟩] := by
  have hphrase : Phrase .expr u t :=
    phrase_of_derives (hu.derives ht fun _ _ => Tree.binding_pos) (hu.lexical ht)
  have hstmt : Stmt (declaration name u) ⟨name, t⟩ := .var hphrase
  have := Prog.cons hstmt .nil
  rwa [List.append_nil] at this

/-- **Numerals but the zero round-trip from their value to the compiled literal**, in every
operand position of every expression, however it is parenthesised and spaced. -/
theorem literal_round_trip_iff {n : Nat} {name : List UInt8} {hole : Hole} {w : Bool} {u : List Lexeme}
    {text : List UInt8} (hname : inClass .Identifier name = true) (hhole : hole.isPrintable = true)
    (hu : Rendering (hole.fill (.number (canonical n))) w u) (htext : Spaced (declaration name u) text) :
    RoundTrips name (canonical n) hole text ↔ n ≠ 0 := by
  constructor
  · rintro h rfl
    -- a number that was read is of its class, and none of the class starts with `0`
    have := h.inClass
    rw [canonical_of_lt (by decide)] at this
    cases this
  · intro hn
    have ht := Hole.fill_isPrintable (t := .number (canonical n)) hhole (inClass_canonical hn)
    have hprog : Prog (declaration name u) _ := prog_declaration ht hu
    have hlex := lexical_declaration hname (hu.lexical ht)
    rw [← htext.lexemes_eq hlex hprog.alternates.apart] at hprog
    obtain ⟨items, after, hparse, hbuilt⟩ :=
      Chapter08.parse_of_program ((prog_iff (lexical_lexemes text)).mp hprog)
    exact roundTrips_of_block hparse (Chapter08.isBlock_pushNode hbuilt)

/-- `var y = a * 40;`, with a blank before each token. -/
theorem literal_round_trip_forty :
    RoundTrips (ascii "y") (canonical 40) (.right (.identifier (ascii "a")) (ascii "*") .here)
      (ascii " var y = a * 40 ;") := by
  have hu : Rendering (.binary (ascii "*") (.identifier (ascii "a")) (.number (canonical 40))) false
      ([⟨.Identifier, ascii "a"⟩] ++ ⟨.Operator, ascii "*"⟩ :: [⟨.Number, canonical 40⟩]) :=
    .binary (fun _ hk => (nomatch hk)) (fun _ hk => (nomatch hk)) .identifier .number
  have htext := spaced_spell (declaration (ascii "y")
    ([⟨.Identifier, ascii "a"⟩] ++ ⟨.Operator, ascii "*"⟩ :: [⟨.Number, canonical 40⟩]))
  exact (@literal_round_trip_iff 40 (ascii "y") (.right (.identifier (ascii "a")) (ascii "*") .here) false _ _
    (by decide) (by decide +kernel) hu htext).mpr (by decide)

/-- `var x = 0;` is rejected. -/
theorem zero_rejected : Rendering (Hole.here.fill (.number (canonical 0))) false [⟨.Number, canonical 0⟩] ∧
    spell (declaration (ascii "x") [⟨.Number, canonical 0⟩]) = ascii " var x = 0 ;" ∧
    Chapter08.parse (Parser.init (ascii " var x = 0 ;")) = .error InvalidToken ∧
    ¬ RoundTrips (ascii "x") (canonical 0) .here (ascii " var x = 0 ;") := by
  have hparse : Chapter08.parse (Parser.init (ascii " var x = 0 ;")) = .error InvalidToken :=
    Chapter08.parse_error.mpr (by decide +kernel)
  refine ⟨.number, by decide +kernel, hparse, ?_⟩
  rintro ⟨root, self, _, _, _, _, hok, _⟩
  rw [hparse] at hok
  cases hok

end CompilingToAssembly
