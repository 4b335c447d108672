import CompilingToAssembly.Parser.Consumption
import CompilingToAssembly.Parser.Grammar

/-! Parsing what was printed.

`Rendering` is how a tree is written down: an operand that binds less tightly than
its place asks for stands in parentheses, and any other may. Such a sequence of
tokens is derived at every threshold its outermost operator exceeds
(`Rendering.derives`), which is what the climbing parser reads; and with single
spaces between the tokens the text is consumed to its last byte
(`parse_rendering`). -/
namespace CompilingToAssembly
open Library Climb

/-! ### Trees and their renderings -/

def arithmetic : List (List UInt8) := ["+", "-", "*", "/"].map ascii

/-- How tightly an operator binds. -/
def binding (op : List UInt8) : Nat := if op = ascii "+" ∨ op = ascii "-" then 1 else 2

/-- The texts of a tree's leaves are tokens and its operators are the four. -/
def Tree.isPrintable : Tree (List UInt8) → Bool
  | .number text => inClass .Number text
  | .identifier text => inClass .Identifier text
  | .binary op left right => arithmetic.contains op && left.isPrintable && right.isPrintable

/-- How tightly the operator at the root binds. -/
def Tree.binding? : Tree (List UInt8) → Option Nat
  | .binary op _ _ => some (binding op)
  | _ => none

/-- `Rendering t wrapped u`: the tokens `u` write `t` down, and `wrapped` says whether
parentheses stand around the whole. A left operand has them at least if its operator
binds less tightly, a right one if it does not bind more tightly. -/
inductive Rendering : Tree (List UInt8) → Bool → List Lexeme → Prop where
  | number {text} : Rendering (.number text) false [⟨.Number, text⟩]
  | identifier {text} : Rendering (.identifier text) false [⟨.Identifier, text⟩]
  | binary {op left right wl wr u v} :
      (∀ k ∈ left.binding?, k < binding op → wl = true) →
      (∀ k ∈ right.binding?, k ≤ binding op → wr = true) →
      Rendering left wl u → Rendering right wr v →
      Rendering (.binary op left right) false (u ++ ⟨.Operator, op⟩ :: v)
  | parens {t w u} : Rendering t w u →
      Rendering t true (punct .LeftParen "(" :: (u ++ [punct .RightParen ")"]))

/-- The texts of the tokens with single spaces between them. -/
def joined (ls : List Lexeme) : List UInt8 := List.intercalate [byte ' '] (ls.map Lexeme.text)

theorem binding_pos (op : List UInt8) : 0 < binding op := by
  unfold binding
  split <;> decide

theorem Tree.binding_pos {t : Tree (List UInt8)} {k : Nat} (hk : k ∈ t.binding?) : 0 < k := by
  cases t with
  | binary op left right =>
    cases hk
    exact CompilingToAssembly.binding_pos op
  | _ => cases hk

theorem prec_eq_binding {op : List UInt8} (h : arithmetic.contains op = true) :
    (Descent.operators chapter08).prec ⟨.Operator, op⟩ = binding op := by
  have htable : ∀ op ∈ arithmetic, (Descent.operators chapter08).prec ⟨.Operator, op⟩ = binding op := by
    decide +kernel
  exact htable op (List.contains_iff_mem.mp h)

theorem Tree.isPrintable_binary {op : List UInt8} {left right : Tree (List UInt8)}
    (h : (Tree.binary op left right).isPrintable = true) :
    arithmetic.contains op = true ∧ left.isPrintable = true ∧ right.isPrintable = true := by
  simpa only [isPrintable, Bool.and_eq_true, and_assoc] using h

namespace Rendering
variable {t : Tree (List UInt8)} {w : Bool} {u : List Lexeme}

theorem lexical (h : Rendering t w u) (ht : t.isPrintable = true) : Lexical u := by
  induction h with
  | number => exact List.forall_mem_singleton.mpr ht
  | identifier => exact List.forall_mem_singleton.mpr ht
  | binary _ _ _ _ ihl ihr =>
    obtain ⟨hop, hl, hr⟩ := Tree.isPrintable_binary ht
    have hclass : ∀ op ∈ arithmetic, inClass .Operator op = true := by decide +kernel
    exact List.forall_mem_append.mpr
      ⟨ihl hl, List.forall_mem_cons.mpr ⟨hclass _ (List.contains_iff_mem.mp hop), ihr hr⟩⟩
  | parens _ ih =>
    exact List.forall_mem_cons.mpr ⟨by decide,
      List.forall_mem_append.mpr ⟨ih ht, List.forall_mem_singleton.mpr (by decide)⟩⟩

/-- A rendering is derived at every threshold its outermost operator exceeds, and at any
if it is wrapped. -/
theorem derives (h : Rendering t w u) (ht : t.isPrintable = true) {p : Nat}
    (hp : w = false → ∀ k ∈ t.binding?, p < k) : Derives (Descent.operators chapter08) p u t := by
  induction h generalizing p with
  | number => exact .leaf rfl
  | identifier => exact .leaf rfl
  | @binary op left right wl wr u v hleft hright _ _ ihl ihr =>
    obtain ⟨hop, hl, hr⟩ := Tree.isPrintable_binary ht
    have hprec := prec_eq_binding hop
    refine .node (t := (⟨.Operator, op⟩ : Lexeme)) ?_ ?_ ?_ <;> rw [hprec]
    · exact hp rfl _ rfl
    -- the left operand is derived one below the operator, so that an equal one may stand there
    · refine ihl hl fun hw k hk => ?_
      have hle : ¬ k < binding op := fun hlt => by
        rw [hleft k hk hlt] at hw
        cases hw
      have := binding_pos op
      omega
    · refine ihr hr fun hw k hk => ?_
      by_contra hle
      rw [hright k hk (Nat.le_of_not_lt hle)] at hw
      cases hw
  | @parens t w u _ ih =>
    exact .bracket rfl rfl rfl (ih ht fun _ _ => Tree.binding_pos)

end Rendering

/-! ### The text is consumed -/

theorem joined_cons (l : Lexeme) (ls : List Lexeme) : joined (l :: ls) = l.text ++ spell ls := by
  induction ls generalizing l with
  | nil => simp [joined, spell]
  | cons l' ls ih =>
    have hspell : spell (l' :: ls) = byte ' ' :: (l'.text ++ spell ls) := rfl
    rw [hspell, ← ih l']
    simp [joined, List.intercalate_cons_cons]

namespace Lexer

/-- A call of `next` takes a token that nothing glues to, and leaves what follows it. -/
theorem next_cons {skipped more : List UInt8} {l : Lexeme} (hskip : ∀ b ∈ skipped, prong b = .skip)
    (hl : inClass l.kind l.text = true) (hstop : ∀ b ∈ more.head?, ¬ Glues l b) {self : Lexer}
    (hdone : self.done = false) (hrest : self.rest = skipped ++ (l.text ++ more)) :
    ∃ t after, self.next Chapter08.isNumeric = .ok (t, after) ∧ after.done = false ∧ after.rest = more := by
  have hr := read_cons hskip hl hstop
  rw [← hrest] at hr
  exact ⟨_, _, next_of_read hdone hr, hdone, rest_after hr⟩

/-- Calls of `next` lead to the end of a spelled sequence. -/
theorem steps_spell {ls : List Lexeme} (h : Lexical ls) {self : Lexer} (hdone : self.done = false)
    (hrest : self.rest = spell ls) :
    ∃ ts last, Steps (Lexer.next Chapter08.isNumeric) self ts last ∧ last.rest = [] := by
  induction ls generalizing self with
  | nil => exact ⟨[], self, .nil, hrest⟩
  | cons l ls ih =>
    obtain ⟨hl, hls⟩ := h.cons
    obtain ⟨t, after, hnext, hdone', hrest'⟩ :=
      next_cons skip_space hl (spell_stops hl ls) hdone hrest
    obtain ⟨ts, last, hsteps, hlast⟩ := ih hls hdone' hrest'
    exact ⟨t :: ts, last, .cons hnext hsteps, hlast⟩

theorem steps_joined {ls : List Lexeme} (h : Lexical ls) :
    ∃ ts last, Steps (Lexer.next Chapter08.isNumeric) (Lexer.init (joined ls)) ts last ∧ last.rest = [] := by
  cases ls with
  | nil => exact ⟨[], _, .nil, rfl⟩
  | cons l ls =>
    obtain ⟨hl, hls⟩ := h.cons
    have hinit : (Lexer.init (joined (l :: ls))).done = false := rfl
    obtain ⟨t, after, hnext, hdone, hrest⟩ :=
      next_cons skip_nothing hl (spell_stops hl ls) hinit (joined_cons l ls)
    obtain ⟨ts, last, hsteps, hlast⟩ := steps_spell hls hdone hrest
    exact ⟨t :: ts, last, .cons hnext hsteps, hlast⟩

/-- The lexer never runs past its input. -/
theorem steps_index_le {self last : Lexer} {ts : List Token} (h : Steps (Lexer.next Chapter08.isNumeric) self ts last)
    (hle : self.index ≤ self.input.length) : last.index ≤ last.input.length := by
  refine h.invariant (P := fun l => l.index ≤ l.input.length) ?_ hle
  intro l t l' hnext _
  obtain ⟨_, r, hr, _, rfl⟩ := next_ok hnext
  rw [index_after]
  exact token_finish_le hr

/-- A lexer that has no token left of a joined sequence is at its end. -/
theorem index_joined {ls : List Lexeme} (h : Lexical ls) {ts : List Token} {last : Lexer}
    (hsteps : Steps (Lexer.next Chapter08.isNumeric) (Lexer.init (joined ls)) ts last)
    (hend : last.next Chapter08.isNumeric = .error MissingToken) : last.index = (joined ls).length := by
  obtain ⟨us, last', hsteps', hrest⟩ := steps_joined h
  have hend' : last'.next Chapter08.isNumeric = _ := next_of_none (steps_done hsteps' rfl) (by rw [hrest]; rfl)
  obtain ⟨_, rfl⟩ := hsteps.unique hend hsteps' hend'
  have hle := steps_index_le hsteps (Nat.zero_le _)
  have hge := List.drop_eq_nil_iff.mp hrest
  rw [steps_input hsteps] at hle hge
  exact Nat.le_antisymm hle hge

end Lexer

theorem reads_joined {ls : List Lexeme} (h : Lexical ls) : Reads Chapter08.isNumeric (joined ls) ls := by
  cases ls with
  | nil => exact .done rfl
  | cons l ls =>
    obtain ⟨hl, hls⟩ := h.cons
    rw [joined_cons]
    exact Reads.cons skip_nothing hl (spell_stops hl ls) (reads_spell hls)

/-- **Parsing undoes printing.** On a rendering of a tree with single spaces between its
tokens `parseExpression` succeeds, consumes the whole text and returns the tree. -/
theorem parse_rendering {t : Tree (List UInt8)} {w : Bool} {u : List Lexeme} (ht : t.isPrintable = true)
    (h : Rendering t w u) :
    ∃ p after, (Parser.init (joined u)).parseExpression chapter08 0 = .ok (p, after) ∧
      after.lexer.index = (joined u).length ∧ Denotes after.nodes p t := by
  have hlex := h.lexical ht
  have hreads := reads_joined hlex
  have hlen := reads_length_le hreads
  have hderives := h.derives ht (p := 0) fun _ _ => Tree.binding_pos
  have hclimb := climb_complete hderives ((joined u).length + 2) [] (by simp; omega) (Nat.zero_le _)
  rw [List.append_nil] at hclimb
  have hinit : At chapter08 (Parser.init (joined u)) u := at_init hreads
  have hsim := parseExpression_simulates 0 hinit
  have hbudget : (Parser.init (joined u) : Parser (List UInt8)).budget = (joined u).length + 2 := rfl
  rw [hbudget, show (0 : UInt8).toNat = 0 from rfl, hclimb] at hsim
  obtain ⟨p, after, hparse, hat, _, hdenotes, _⟩ := hsim
  obtain ⟨ts, hts, _⟩ := Parser.parseExpressionWithin_passes hparse
  refine ⟨p, after, hparse, Lexer.index_joined hlex hts ?_, hdenotes⟩
  cases hat.reads with
  | done hr => exact Lexer.next_of_none hat.done hr

/-- `( 7 - 2 ) * x`, without redundant parentheses. -/
theorem parse_rendering_product :
    let t : Tree (List UInt8) := .binary (ascii "*")
      (.binary (ascii "-") (.number (ascii "7")) (.number (ascii "2"))) (.identifier (ascii "x"))
    ∃ u p after, Rendering t false u ∧ joined u = ascii "( 7 - 2 ) * x" ∧
      (Parser.init (joined u)).parseExpression chapter08 0 = .ok (p, after) ∧
      after.lexer.index = (joined u).length ∧ Denotes after.nodes p t := by
  intro t
  have hdifference : Rendering (.binary (ascii "-") (.number (ascii "7")) (.number (ascii "2"))) false _ :=
    .binary (fun _ hk => (nomatch hk)) (fun _ hk => (nomatch hk)) .number .number
  have hproduct : Rendering t false _ :=
    .binary (fun _ _ _ => rfl) (fun _ hk => (nomatch hk)) hdifference.parens .identifier
  obtain ⟨p, after, h⟩ := parse_rendering (by decide +kernel) hproduct
  exact ⟨_, p, after, hproduct, by decide +kernel, h⟩

end CompilingToAssembly
