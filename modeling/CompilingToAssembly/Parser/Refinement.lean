import CompilingToAssembly.Parser.Descent
import CompilingToAssembly.Parser.Lexemes

/-! The parser refines the descent on token sequences.

A parser stands `At` a token sequence when that is what its lexer will read. From
there each function of the parser does what its counterpart in `Descent` does on
the sequence: it fails with the same error, or it succeeds, stands at what the
descent leaves, and has appended nodes to its list such that the pointer it returns
denotes the tree the descent returns (`Simulates`). `parseStatements_simulates` is
the whole loop, and `parse_program` puts it together with `Descent.program_iff`. -/
namespace CompilingToAssembly
open Library Climb

variable {ν : Type} {ch : Chapter ν}

/-! ### What the lexer can return, in either chapter -/

/-- A token without text is a number, and the chapter does not convert it. -/
theorem read_text_nil {bytes : List UInt8} {r : Reading} (h : read ch.isNumeric bytes = some r)
    (hnil : r.lexeme.text = []) : r.lexeme = ⟨.Number, []⟩ ∧ ∃ e, ch.number [] = .error e := by
  obtain ⟨_, c, tail, _, hf⟩ := read_eq_some h
  obtain ⟨hp, hl⟩ := first_text_nil hf hnil
  refine ⟨hl, ?_⟩
  rcases ch.nonempty with hnum | he
  · have hc := (prong_number c).mp hp
    rw [first_number hp hf, List.takeWhile_cons_of_pos (hnum c hc)] at hnil
    cases hnil
  · exact he

/-- The four bytes that have a precedence. -/
def isArithmetic (c : UInt8) : Bool := c == byte '+' || c == byte '-' || c == byte '*' || c == byte '/'

theorem prong_arithmetic (c : UInt8) (h : isArithmetic c = true) : prong c = .operator [] :=
  forall_byte (P := fun c => isArithmetic c = true → prong c = .operator []) (by decide +kernel) c h

/-- A token that has a precedence is one of the four operators, and nothing more. -/
theorem read_operator {bytes : List UInt8} {r : Reading} (h : read ch.isNumeric bytes = some r)
    (hprec : Descent.precedence r.lexeme ≠ .Lowest) :
    r.lexeme.kind = .Operator ∧ ∃ c, isArithmetic c = true ∧ r.lexeme.text = [c] := by
  have hk : r.lexeme.kind = .Operator := by
    by_contra hk
    exact hprec (Descent.precedence_of_kind hk)
  refine ⟨hk, ?_⟩
  cases htext : r.lexeme.text with
  | nil =>
    rw [(read_text_nil h htext).1] at hk
    cases hk
  | cons c cs =>
    have hc : isArithmetic c = true := by
      by_contra hc
      apply hprec
      have hc' : ¬ (((c == byte '+') = true ∨ (c == byte '-') = true) ∨ (c == byte '*') = true) ∧
          ¬ (c == byte '/') = true := by
        simpa only [isArithmetic, Bool.or_eq_true, not_or] using hc
      simp only [Descent.precedence, hk, htext, List.head?_cons, Bool.or_eq_true]
      rw [if_neg (fun h => hc'.1 (.inl h)), if_neg (fun h => h.elim (fun h => hc'.1 (.inr h)) hc'.2)]
    refine ⟨c, hc, ?_⟩
    obtain ⟨_, c', tail, _, hf⟩ := read_eq_some h
    have hcc : c' = c := by
      have := first_append hf
      rw [htext] at this
      exact (List.cons.inj this).1
    rw [first_operator_alone (hcc ▸ prong_arithmetic c hc) hf, hcc] at htext
    exact htext.symm

/-! ### Standing at a token sequence -/

variable (ch) in
/-- The lexer of `parser` reads `ls` from here on. -/
structure At (parser : Parser ν) (ls : List Lexeme) : Prop where
  done : parser.lexer.done = false
  reads : Reads ch.isNumeric parser.lexer.rest ls

theorem at_init {input : List UInt8} {ls : List Lexeme} (h : Reads ch.isNumeric input ls) :
    At ch (Parser.init input) ls := ⟨rfl, h⟩

/-- `after` is `before` some tokens and `pushed` nodes later. -/
structure Follows (before after : Parser ν) (pushed : Nat) : Prop where
  input : after.lexer.input = before.lexer.input
  grows : before.nodes.Grows after.nodes
  length : after.nodes.items.length = before.nodes.items.length + pushed
  started : before.nodes.Started 100 → after.nodes.Started 100

namespace Follows
variable {self after last : Parser ν}

theorem trans {m n : Nat} (h : Follows self after m) (h' : Follows after last n) :
    Follows self last (m + n) :=
  ⟨h'.input.trans h.input, h.grows.trans h'.grows, by rw [h'.length, h.length, Nat.add_assoc],
    fun hs => h'.started (h.started hs)⟩

theorem of_nodes (hi : after.lexer.input = self.lexer.input) (hn : after.nodes = self.nodes) :
    Follows self after 0 := by
  refine ⟨hi, ?_, by rw [hn]; rfl, fun hs => by rw [hn]; exact hs⟩
  rw [hn]
  exact .refl _

theorem pushNode (self : Parser ν) (node : Ast ν) : Follows self (self.pushNode node).2 1 :=
  ⟨rfl, ArrayList.Grows.append .., by simp [Parser.pushNode],
    fun hs => ArrayList.started_append hs node⟩

theorem budget {n : Nat} (h : Follows self after n) : after.budget = self.budget := by
  unfold Parser.budget
  rw [h.input]

end Follows

theorem deref_pushNode (self : Parser ν) (node : Ast ν) :
    (self.pushNode node).2.nodes.deref (self.pushNode node).1 = some node :=
  ArrayList.deref_lastPointer ..

theorem generation_pushNode (self : Parser ν) (node : Ast ν) :
    (self.pushNode node).1.generation ≤ (self.pushNode node).2.nodes.generation := Nat.le_refl _

theorem At.pushNode {self : Parser ν} {ls : List Lexeme} (h : At ch self ls) (node : Ast ν) :
    At ch (self.pushNode node).2 ls := ⟨h.done, h.reads⟩

variable (ch) in
/-- Taking the token `token` off a parser at `l :: ls`. Past a token without text the
lexer does not move on, so nothing is said of where it stands then. -/
structure Takes (before : Parser ν) (l : Lexeme) (ls : List Lexeme) (token : Token)
    (after : Parser ν) : Prop where
  next : before.next ch = .ok (token, after)
  peek : before.peek ch = some token
  kind : token.tokenType = l.kind
  slice : after.lexer.slice token = l.text
  precedence : before.getPrecedence token = Descent.precedence l
  input : after.lexer.input = before.lexer.input
  nodes : after.nodes = before.nodes
  stands : l.text ≠ [] → At ch after ls
  empty : l.text = [] → l.kind = .Number ∧ ∃ e, ch.number [] = .error e
  operator : Descent.precedence l ≠ .Lowest →
    l.kind = .Operator ∧ ∃ c, isArithmetic c = true ∧ l.text = [c]

theorem Takes.follows {self after : Parser ν} {l : Lexeme} {ls : List Lexeme} {token : Token}
    (h : Takes ch self l ls token after) : Follows self after 0 :=
  .of_nodes h.input h.nodes

theorem At.next_nil {self : Parser ν} (h : At ch self []) :
    self.next ch = .error MissingToken ∧ self.peek ch = none := by
  cases h.reads with
  | done hr =>
    unfold Parser.next Parser.peek
    rw [Lexer.next_read _ h.done, Lexer.peek_read _ h.done, hr]
    exact ⟨rfl, rfl⟩

theorem getPrecedence_token {self : Parser ν} {r : Reading}
    (hr : read ch.isNumeric self.lexer.rest = some r) :
    self.getPrecedence (self.lexer.token r) = Descent.precedence r.lexeme := by
  have hkind : (self.lexer.token r).tokenType = r.lexeme.kind := rfl
  by_cases hk : r.lexeme.kind = .Operator
  · have hhead : self.lexer.input[(self.lexer.token r).start]? = r.lexeme.text.head? := by
      rw [← List.head?_drop, Lexer.drop_token_start hr]
      cases htext : r.lexeme.text with
      | nil =>
        rw [(read_text_nil hr htext).1] at hk
        cases hk
      | cons c cs => rfl
    unfold Parser.getPrecedence Descent.precedence
    cases hc : r.lexeme.text.head? <;> simp only [hkind, hk, hhead, hc]
  · rw [Descent.precedence_of_kind hk]
    unfold Parser.getPrecedence
    rw [hkind]
    split
    · contradiction
    · rfl

theorem At.takes {self : Parser ν} {l : Lexeme} {ls : List Lexeme} (h : At ch self (l :: ls)) :
    ∃ token after, Takes ch self l ls token after := by
  obtain ⟨r, hr, hl, hstands⟩ : ∃ r, read ch.isNumeric self.lexer.rest = some r ∧ r.lexeme = l ∧
      (l.text ≠ [] → Reads ch.isNumeric r.rest ls) := by
    cases hreads : h.reads with
    | step hr hne hls => exact ⟨_, hr, rfl, fun _ => hls⟩
    | stuck hr he => exact ⟨_, hr, rfl, fun hne => absurd he hne⟩
  subst hl
  refine ⟨self.lexer.token r, { self with lexer := self.lexer.after r }, ?_⟩
  have hnext : self.next ch = .ok (self.lexer.token r, { self with lexer := self.lexer.after r }) := by
    unfold Parser.next
    rw [Lexer.next_read _ h.done, hr]
  refine ⟨hnext, ?_, rfl, ?_, getPrecedence_token hr, rfl, rfl, ?_, ?_, fun hp => read_operator hr hp⟩
  · unfold Parser.peek
    rw [Lexer.peek_read _ h.done, hr]
    rfl
  · exact congrArg Lexeme.text (Lexer.lexeme_token hr)
  · intro hne
    refine ⟨h.done, ?_⟩
    show Reads ch.isNumeric (self.lexer.after r).rest ls
    rw [Lexer.rest_after hr]
    exact hstands hne
  · intro hnil
    obtain ⟨hl, he⟩ := read_text_nil hr hnil
    exact ⟨by rw [hl], he⟩

theorem Follows.generation_eq_zero {self after : Parser ν} {n : Nat} (h : Follows self after n)
    (hs : self.nodes.Started 100) (hlen : self.nodes.items.length + n ≤ 100) :
    after.nodes.generation = 0 :=
  (ArrayList.generation_eq_zero_iff (h.started hs)).mpr (by rw [h.length]; exact hlen)

/-- The first operand of the expression at `p` was appended to `before` first: it is in
the first buffer if that had room left. -/
def FirstOldest (before after : ArrayList (Ast ν)) (p : Pointer) : Prop :=
  ∃ q, Leftmost after p q ∧ (before.Started 100 → before.items.length < 100 → q.generation = 0)

theorem FirstOldest.grows {before after last : ArrayList (Ast ν)} {p : Pointer}
    (h : FirstOldest before after p) (hg : after.Grows last) : FirstOldest before last p := by
  obtain ⟨q, hq, hgen⟩ := h
  exact ⟨q, hq.grows hg, hgen⟩

theorem FirstOldest.behind {before after : Parser ν} {last : ArrayList (Ast ν)} {p : Pointer}
    (h : FirstOldest after.nodes last p) (hf : Follows before after 0) : FirstOldest before.nodes last p := by
  obtain ⟨q, hq, hgen⟩ := h
  exact ⟨q, hq, fun hs hlen => hgen (hf.started hs) (by rw [hf.length]; exact hlen)⟩

theorem FirstOldest.pushNode {before after : Parser ν} (h : Follows before after 0) (node : Ast ν) :
    FirstOldest before.nodes (after.pushNode node).2.nodes (after.pushNode node).1 := by
  refine ⟨_, .refl, fun hs hlen => ?_⟩
  have hgen := (h.trans (.pushNode after node)).generation_eq_zero hs (by omega)
  have := generation_pushNode after node
  omega

/-! ### Function by function -/

variable (ch) in
/-- The parser's function does what the descent does: the same error, or a pointer
to the same tree and a parser at what is left. -/
def Simulates (before : Parser ν) (abstract : Except Error (Tree ν × List Lexeme))
    (concrete : Except Error (Pointer × Parser ν)) : Prop :=
  match abstract with
  | .error e => concrete = .error e
  | .ok (t, ls) => ∃ p after, concrete = .ok (p, after) ∧ At ch after ls ∧
      Follows before after t.size ∧ Denotes after.nodes p t ∧ FirstOldest before.nodes after.nodes p

/-- Where the token is not the empty number, expecting a type takes a token off. -/
theorem expectTokenType_simulates {self : Parser ν} {ls : List Lexeme} (h : At ch self ls)
    (tokenType : TokenType) (hnum : tokenType ≠ .Number) :
    match Descent.expect (fun l => l.kind == tokenType) ls with
    | .error e => self.expectTokenType ch tokenType = .error e
    | .ok (_, ls') => ∃ after, self.expectTokenType ch tokenType = .ok after ∧ At ch after ls' ∧
        Follows self after 0 := by
  cases ls with
  | nil =>
    show self.expectTokenType ch tokenType = .error .missing
    rw [Parser.expectTokenType, h.next_nil.1]
  | cons l ls =>
    obtain ⟨token, after, ht⟩ := h.takes
    by_cases hk : l.kind = tokenType
    · have hne : l.text ≠ [] := fun hnil => hnum (hk ▸ (ht.empty hnil).1)
      simp only [Descent.expect, hk, beq_self_eq_true, if_true]
      refine ⟨after, ?_, ht.stands hne, ht.follows⟩
      rw [Parser.expectTokenType, ht.next]
      simp [ht.kind, hk]
    · simp only [Descent.expect, beq_iff_eq, hk, if_false]
      rw [Parser.expectTokenType, ht.next]
      simp [ht.kind, hk]

theorem parseIdentifier_simulates {self : Parser ν} {ls : List Lexeme} (h : At ch self ls) :
    Simulates ch self
      (match Descent.expect Descent.isIdentifier ls with
        | .error e => .error e
        | .ok (l, ls) => .ok (.identifier l.text, ls))
      (self.parseIdentifier ch) := by
  cases ls with
  | nil =>
    show self.parseIdentifier ch = .error .missing
    rw [Parser.parseIdentifier, h.next_nil.1]
  | cons l ls =>
    obtain ⟨token, after, ht⟩ := h.takes
    by_cases hk : l.kind = .Identifier
    · have hne : l.text ≠ [] := by
        intro hnil
        have := (ht.empty hnil).1
        rw [hk] at this
        cases this
      simp only [Descent.expect, Descent.isIdentifier, hk, beq_self_eq_true, if_true]
      refine ⟨_, _, ?_, (ht.stands hne).pushNode (.Identifier l.text),
        ht.follows.trans (.pushNode after _),
        .identifier (generation_pushNode ..) (deref_pushNode ..), .pushNode ht.follows _⟩
      rw [Parser.parseIdentifier, ht.next]
      simp [ht.kind, hk, ht.slice]
    · simp only [Descent.expect, Descent.isIdentifier, beq_iff_eq, hk, if_false]
      show self.parseIdentifier ch = .error .invalid
      rw [Parser.parseIdentifier, ht.next]
      simp [ht.kind, hk]

theorem operand_number {expr : List Lexeme → Result Lexeme ParseIntError (Tree ν)} {l : Lexeme}
    {ls : List Lexeme} (hk : l.kind = .Number) :
    operand (Descent.operators ch) expr (l :: ls) =
      match ch.number l.text with
      | .error e => .error (.leaf e)
      | .ok value => .ok (.number value, ls) := by
  simp only [operand, Descent.operators, hk]
  cases ch.number l.text <;> rfl

theorem operand_identifier {expr : List Lexeme → Result Lexeme ParseIntError (Tree ν)} {l : Lexeme}
    {ls : List Lexeme} (hk : l.kind = .Identifier) :
    operand (Descent.operators ch) expr (l :: ls) = .ok (.identifier l.text, ls) := by
  simp only [operand, Descent.operators, hk]

theorem operand_other {expr : List Lexeme → Result Lexeme ParseIntError (Tree ν)} {l : Lexeme}
    {ls : List Lexeme} (hn : l.kind ≠ .Number) (hi : l.kind ≠ .Identifier) :
    operand (Descent.operators ch) expr (l :: ls) =
      if l.kind = .LeftParen then closing (Descent.operators ch) (expr ls) else .error .invalid := by
  have hleaf : (Descent.operators ch).leaf l = none := by
    simp only [Descent.operators]
  simp only [operand, hleaf]
  simp [Descent.operators]

/-- A leaf of an expression. -/
theorem parsePrimaryExpression_simulates {self : Parser ν} {l : Lexeme} {ls : List Lexeme}
    {expr : List Lexeme → Result Lexeme ParseIntError (Tree ν)} (h : At ch self (l :: ls))
    (hk : l.kind = .Number ∨ l.kind = .Identifier) :
    Simulates ch self (operand (Descent.operators ch) expr (l :: ls))
      (self.parsePrimaryExpression ch) := by
  obtain ⟨token, after, ht⟩ := h.takes
  rcases hk with hk | hk
  · have hprimary : self.parsePrimaryExpression ch = self.parseNumber ch := by
      simp [Parser.parsePrimaryExpression, ht.peek, ht.kind, hk]
    rw [hprimary, operand_number hk, Parser.parseNumber, ht.next]
    simp only [ht.kind, hk, ne_eq, not_true_eq_false, if_false, ht.slice]
    cases hnumber : ch.number l.text with
    | error e => rfl
    | ok value =>
      have hne : l.text ≠ [] := by
        intro hnil
        obtain ⟨_, e, he⟩ := ht.empty hnil
        rw [hnil, he] at hnumber
        cases hnumber
      exact ⟨_, _, rfl, (ht.stands hne).pushNode _, ht.follows.trans (.pushNode after _),
        .number (generation_pushNode ..) (deref_pushNode ..), .pushNode ht.follows _⟩
  · have hprimary : self.parsePrimaryExpression ch = self.parseIdentifier ch := by
      simp [Parser.parsePrimaryExpression, ht.peek, ht.kind, hk]
    have := parseIdentifier_simulates h
    simp only [Descent.expect, Descent.isIdentifier, hk, beq_self_eq_true, if_true] at this
    rw [hprimary, operand_identifier hk]
    exact this

variable (ch) in
/-- `parsePrefix` from behind the expression in brackets on. -/
def Parser.closeParen : Except Error (Pointer × Parser ν) → Except Error (Pointer × Parser ν)
  | .error e => .error e
  | .ok (node, self) =>
    match self.expectTokenType ch .RightParen with
    | .error e => .error e
    | .ok self => .ok (node, self)

/-- `parseInfix` from behind its right operand on. -/
def Parser.pushBinary (op : List UInt8) (left : Pointer) :
    Except Error (Pointer × Parser ν) → Except Error (Pointer × Parser ν)
  | .error e => .error e
  | .ok (right, self) => .ok (self.pushNode (.BinaryOperator op left right))

variable (ch) in
/-- The same for the loop, with `tl` at `left` parsed so far: the nodes it appends are
those of the tree it returns that are not nodes of `tl`, which stays the first operand. -/
def SimulatesLoop (before : Parser ν) (left : Pointer) (tl : Tree ν)
    (abstract : Except Error (Tree ν × List Lexeme)) (concrete : Except Error (Pointer × Parser ν)) : Prop :=
  match abstract with
  | .error e => concrete = .error e
  | .ok (t, ls) => ∃ p after added, concrete = .ok (p, after) ∧ At ch after ls ∧
      Follows before after added ∧ t.size = tl.size + added ∧ Denotes after.nodes p t ∧
      Leftmost after.nodes p left

theorem SimulatesLoop.done {self : Parser ν} {ls : List Lexeme} {left : Pointer} {tl : Tree ν}
    (h : At ch self ls) (hleft : Denotes self.nodes left tl) :
    SimulatesLoop ch self left tl (.ok (tl, ls)) (.ok (left, self)) :=
  ⟨left, self, 0, rfl, h, .of_nodes rfl rfl, rfl, hleft, .refl⟩

/-- One more turn before the loop. -/
theorem SimulatesLoop.turn {self turned : Parser ν} {left root : Pointer} {op : List UInt8} {tl tr : Tree ν}
    {abstract : Except Error (Tree ν × List Lexeme)} {concrete : Except Error (Pointer × Parser ν)}
    (h : SimulatesLoop ch turned root (.binary op tl tr) abstract concrete)
    (hfollows : Follows self turned (tr.size + 1)) (hroot : Leftmost turned.nodes root left) :
    SimulatesLoop ch self left tl abstract concrete := by
  cases abstract with
  | error e => exact h
  | ok r =>
    obtain ⟨p, last, added, hp, hat, hfLast, hsize, hd, hfirst⟩ := h
    refine ⟨p, last, tr.size + 1 + added, hp, hat, hfollows.trans hfLast, ?_, hd,
      hfirst.trans (hroot.grows hfLast.grows)⟩
    rw [hsize, Tree.size]
    omega

section
variable {n : Nat} {parseExpression : UInt8 → Parser ν → Except Error (Pointer × Parser ν)}
  (hexpr : ∀ (p : UInt8) (self : Parser ν) (ls : List Lexeme), At ch self ls →
    Simulates ch self (climb (Descent.operators ch) n p.toNat ls) (parseExpression p self))
include hexpr

/-- A bracketed expression, its opening bracket still to be taken. -/
theorem parsePrefix_bracket {self : Parser ν} {l : Lexeme} {ls : List Lexeme}
    (h : At ch self (l :: ls)) (hk : l.kind = .LeftParen) :
    Simulates ch self (closing (Descent.operators ch) (climb (Descent.operators ch) n 0 ls))
      (self.parsePrefix ch parseExpression) := by
  obtain ⟨token, after, ht⟩ := h.takes
  have hopen := expectTokenType_simulates h .LeftParen (by decide)
  simp only [Descent.expect, hk, beq_self_eq_true, if_true] at hopen
  obtain ⟨opened, hopened, hat, hfollows⟩ := hopen
  have hpre : self.parsePrefix ch parseExpression = Parser.closeParen ch (parseExpression 0 opened) := by
    simp only [Parser.parsePrefix, ht.peek, ht.kind, hk, hopened]
    rfl
  rw [hpre]
  have hinner := hexpr 0 opened ls hat
  cases hc : climb (Descent.operators ch) n 0 ls with
  | error e =>
    rw [show (0 : UInt8).toNat = 0 from rfl, hc] at hinner
    rw [show parseExpression 0 opened = .error e from hinner]
    rfl
  | ok r =>
    obtain ⟨t, ls'⟩ := r
    rw [show (0 : UInt8).toNat = 0 from rfl, hc] at hinner
    obtain ⟨p, inner, hp, hatInner, hfInner, hd, hfirst⟩ := hinner
    rw [hp]
    have hclose := expectTokenType_simulates hatInner .RightParen (by decide)
    cases ls' with
    | nil =>
      show Parser.closeParen ch (.ok (p, inner)) = .error MissingToken
      simp only [Descent.expect] at hclose
      simp only [Parser.closeParen, hclose]
    | cons c ls' =>
      by_cases hck : c.kind = .RightParen
      · simp only [Descent.expect, hck, beq_self_eq_true, if_true] at hclose
        obtain ⟨closed, hclosed, hatClosed, hfClosed⟩ := hclose
        simp only [closing, Descent.operators, hck, beq_self_eq_true, if_true, Parser.closeParen, hclosed]
        refine ⟨p, closed, rfl, hatClosed, ?_, hd.grows hfClosed.grows, ?_⟩
        · have := (hfollows.trans hfInner).trans hfClosed
          simpa using this
        · exact (hfirst.behind hfollows).grows hfClosed.grows
      · simp only [Descent.expect, beq_iff_eq, hck, if_false] at hclose
        simp only [closing, Descent.operators, beq_iff_eq, hck, if_false, Parser.closeParen, hclose]
        rfl

theorem parsePrefix_simulates {self : Parser ν} {ls : List Lexeme} (h : At ch self ls) :
    Simulates ch self (operand (Descent.operators ch) (climb (Descent.operators ch) n 0) ls)
      (self.parsePrefix ch parseExpression) := by
  cases ls with
  | nil =>
    show self.parsePrefix ch parseExpression = .error .missing
    simp only [Parser.parsePrefix, h.next_nil.2]
  | cons l ls =>
    obtain ⟨token, after, ht⟩ := h.takes
    by_cases hleaf : l.kind = .Number ∨ l.kind = .Identifier
    · have hprimary : self.parsePrefix ch parseExpression = self.parsePrimaryExpression ch := by
        rcases hleaf with hk | hk <;> simp only [Parser.parsePrefix, ht.peek, ht.kind, hk]
      rw [hprimary]
      exact parsePrimaryExpression_simulates h hleaf
    · obtain ⟨hn, hi⟩ := not_or.mp hleaf
      rw [operand_other hn hi]
      by_cases hk : l.kind = .LeftParen
      · rw [if_pos hk]
        exact parsePrefix_bracket hexpr h hk
      · rw [if_neg hk]
        show self.parsePrefix ch parseExpression = .error .invalid
        simp only [Parser.parsePrefix, ht.peek, ht.kind]

/-- One turn of the loop: an operator and the expression to its right. -/
theorem parseInfix_simulates {self : Parser ν} {l : Lexeme} {ls : List Lexeme} {left : Pointer}
    {tl : Tree ν} (h : At ch self (l :: ls)) (hprec : Descent.precedence l ≠ .Lowest)
    (hleft : Denotes self.nodes left tl) :
    match climb (Descent.operators ch) n (Descent.precedence l).toU8.toNat ls with
    | .error e => self.parseInfix ch parseExpression left = .error e
    | .ok (tr, ls') => ∃ p after, self.parseInfix ch parseExpression left = .ok (p, after) ∧
        At ch after ls' ∧ Follows self after (tr.size + 1) ∧
        Denotes after.nodes p (.binary l.text tl tr) ∧ Leftmost after.nodes p left := by
  obtain ⟨token, after, ht⟩ := h.takes
  obtain ⟨hk, c, hc, htext⟩ := ht.operator hprec
  have hprec' : after.getPrecedence token = Descent.precedence l := by
    rw [← ht.precedence]
    simp only [Parser.getPrecedence, ht.input]
  have hcheck : (after.checkTokenStr token "+" || after.checkTokenStr token "-" ||
      after.checkTokenStr token "*" || after.checkTokenStr token "/") = true := by
    simp only [Parser.checkTokenStr, ht.slice, htext]
    revert hc
    exact forall_byte (P := fun c => isArithmetic c = true → ([c] == ascii "+" || [c] == ascii "-" ||
      [c] == ascii "*" || [c] == ascii "/") = true) (by decide +kernel) c
  have hin : self.parseInfix ch parseExpression left =
      Parser.pushBinary l.text left (parseExpression (Descent.precedence l).toU8 after) := by
    rw [Parser.parseInfix, ht.next]
    simp only [ht.kind, hk, hcheck, if_true, hprec', ht.slice]
    rfl
  have hne : l.text ≠ [] := by rw [htext]; simp
  have hright := hexpr (Descent.precedence l).toU8 after ls (ht.stands hne)
  rw [hin]
  cases hc : climb (Descent.operators ch) n (Descent.precedence l).toU8.toNat ls with
  | error e =>
    rw [hc] at hright
    rw [show parseExpression _ after = .error e from hright]
    rfl
  | ok r =>
    obtain ⟨tr, ls'⟩ := r
    rw [hc] at hright
    obtain ⟨right, last, hlast, hat, hfollows, hd, _⟩ := hright
    rw [hlast]
    have hpush := Follows.pushNode last (.BinaryOperator l.text left right)
    refine ⟨_, _, rfl, hat.pushNode _, ?_, .binary (generation_pushNode ..) (deref_pushNode ..) ?_ ?_,
      .left (deref_pushNode ..) .refl⟩
    · have hall := (ht.follows.trans hfollows).trans hpush
      rw [Nat.zero_add] at hall
      exact hall
    · rw [← ht.nodes] at hleft
      exact hleft.grows (hfollows.grows.trans hpush.grows)
    · exact hd.grows hpush.grows

/-- The loop, with `tl` parsed so far. -/
theorem parseInfixes_simulates (precedence : UInt8) (m : Nat) {self : Parser ν} {ls : List Lexeme}
    {left : Pointer} {tl : Tree ν} (h : At ch self ls) (hleft : Denotes self.nodes left tl) :
    SimulatesLoop ch self left tl
      (loop (Descent.operators ch) (climb (Descent.operators ch) n) precedence.toNat m tl ls)
      (Parser.parseInfixes ch parseExpression precedence m left self) := by
  induction m generalizing self ls left tl with
  | zero => rfl
  | succ m ih =>
    cases ls with
    | nil =>
      simp only [loop, Parser.parseInfixes, h.next_nil.2]
      exact SimulatesLoop.done h hleft
    | cons l ls =>
      obtain ⟨token, after, ht⟩ := h.takes
      by_cases hp : precedence.toNat < (Descent.operators ch).prec l
      · have hprec : Descent.precedence l ≠ .Lowest := by
          intro hlow
          have : (Descent.operators ch).prec l = 0 := by
            show (Descent.precedence l).toU8.toNat = 0
            rw [hlow]
            rfl
          omega
        have hlt : precedence < (self.getPrecedence token).toU8 := by
          rw [ht.precedence]
          exact UInt8.lt_iff_toNat_lt.mpr hp
        rw [loop_turn tl hp]
        simp only [Parser.parseInfixes, ht.peek, if_pos hlt]
        have hturn := parseInfix_simulates hexpr h hprec hleft
        have hsame : (Descent.operators ch).prec l = (Descent.precedence l).toU8.toNat := rfl
        rw [hsame]
        cases hc : climb (Descent.operators ch) n (Descent.precedence l).toU8.toNat ls with
        | error e =>
          rw [hc] at hturn
          simp only at hturn
          rw [hturn]
          rfl
        | ok r =>
          obtain ⟨tr, ls'⟩ := r
          rw [hc] at hturn
          obtain ⟨p, turned, hturned, hat, hfollows, hd, hroot⟩ := hturn
          rw [hturned]
          exact (ih hat hd).turn hfollows hroot
      · have hlt : ¬ precedence < (self.getPrecedence token).toU8 := by
          rw [ht.precedence]
          exact fun hlt => hp (UInt8.lt_iff_toNat_lt.mp hlt)
        simp only [loop, if_neg hp, Parser.parseInfixes, ht.peek, if_neg hlt]
        exact SimulatesLoop.done h hleft

end

theorem parseExpressionWithin_simulates (n : Nat) (precedence : UInt8) (self : Parser ν)
    (ls : List Lexeme) (h : At ch self ls) :
    Simulates ch self (climb (Descent.operators ch) n precedence.toNat ls)
      (Parser.parseExpressionWithin ch n precedence self) := by
  induction n generalizing precedence self ls with
  | zero => rfl
  | succ n ih =>
    have hpre := parsePrefix_simulates ih h
    simp only [climb, Parser.parseExpressionWithin]
    cases hop : operand (Descent.operators ch) (climb (Descent.operators ch) n 0) ls with
    | error e =>
      rw [hop] at hpre
      show _ = _
      rw [show self.parsePrefix ch (Parser.parseExpressionWithin ch n) = .error e from hpre]
    | ok r =>
      obtain ⟨tl, ls'⟩ := r
      rw [hop] at hpre
      obtain ⟨left, after, hafter, hat, hfollows, hd, q, hq, hgen⟩ := hpre
      rw [hafter]
      have hloop := parseInfixes_simulates ih precedence n hat hd
      simp only
      cases hl : loop (Descent.operators ch) (climb (Descent.operators ch) n) precedence.toNat n tl ls' with
      | error e =>
        rw [hl] at hloop
        exact hloop
      | ok r =>
        obtain ⟨t, ls''⟩ := r
        rw [hl] at hloop
        obtain ⟨p, last, added, hlast, hatLast, hfLast, hsize, hdLast, hleft⟩ := hloop
        refine ⟨p, last, hlast, hatLast, ?_, hdLast, q, hleft.trans (hq.grows hfLast.grows), hgen⟩
        rw [hsize]
        exact hfollows.trans hfLast

theorem parseExpression_simulates (precedence : UInt8) {self : Parser ν} {ls : List Lexeme}
    (h : At ch self ls) :
    Simulates ch self (climb (Descent.operators ch) self.budget precedence.toNat ls)
      (self.parseExpression ch precedence) :=
  parseExpressionWithin_simulates self.budget precedence self ls h

/-! ### Statements -/

/-- The nodes a statement appends: its identifier's and its value's. -/
def Statement.size (s : Statement ν) : Nat := s.value.size + 1

/-- The nodes a list of statements appends. -/
def pushedBy (ss : List (Statement ν)) : Nat := (ss.map Statement.size).sum

variable (ch) in
/-- `parseStatement` from behind the `=` on. -/
def Parser.parseValue (self : Parser ν) (identifier : Pointer) : Except Error (Ast ν × Parser ν) :=
  match self.parseExpression ch 0 with
  | .error e => .error e
  | .ok (value, self) =>
    match self.expectTokenType ch .Semicolon with
    | .error e => .error e
    | .ok self => .ok (.Var identifier value, self)

variable (ch) in
/-- `parseStatement` from behind the identifier on. -/
def Parser.parseEquals (self : Parser ν) (identifier : Pointer) : Except Error (Ast ν × Parser ν) :=
  match self.next ch with
  | .error e => .error e
  | .ok (eqToken, self) =>
    if !self.checkTokenStr eqToken "=" then .error InvalidToken else self.parseValue ch identifier

variable (ch) in
/-- `parseStatement` from behind the `var` on. -/
def Parser.parseDeclared (self : Parser ν) : Except Error (Ast ν × Parser ν) :=
  match self.parseIdentifier ch with
  | .error e => .error e
  | .ok (identifier, self) => self.parseEquals ch identifier

theorem parseStatement_eq (self : Parser ν) :
    self.parseStatement ch =
      match self.next ch with
      | .error e => .error e
      | .ok (token, self) =>
        match token.tokenType with
        | .Identifier =>
          if !self.checkTokenStr token "var" then .error InvalidToken else self.parseDeclared ch
        | _ => .error InvalidToken := rfl

variable (ch) in
/-- The same for the part of a statement behind its identifier. -/
def SimulatesVar (before : Parser ν) (identifier : Pointer)
    (abstract : Except Error (Statement ν × List Lexeme))
    (concrete : Except Error (Ast ν × Parser ν)) : Prop :=
  match abstract with
  | .error e => concrete = .error e
  | .ok (s, ls) => ∃ value after, concrete = .ok (.Var identifier value, after) ∧ At ch after ls ∧
      Follows before after s.value.size ∧ Denotes after.nodes value s.value ∧
      FirstOldest before.nodes after.nodes value

theorem SimulatesVar.behind {self after : Parser ν} {identifier : Pointer} {l : Lexeme}
    {ls : List Lexeme} {token : Token} {abstract : Except Error (Statement ν × List Lexeme)}
    {concrete : Except Error (Ast ν × Parser ν)} (h : SimulatesVar ch after identifier abstract concrete)
    (ht : Takes ch self l ls token after) : SimulatesVar ch self identifier abstract concrete := by
  cases abstract with
  | error e => exact h
  | ok r =>
    obtain ⟨value, last, hlast, hat, hfollows, hd, hfirst⟩ := h
    have hall := ht.follows.trans hfollows
    rw [Nat.zero_add] at hall
    exact ⟨value, last, hlast, hat, hall, hd, hfirst.behind ht.follows⟩

theorem parseValue_simulates {self : Parser ν} {ls : List Lexeme} (h : At ch self ls)
    (identifier : Pointer) (name : List UInt8) :
    SimulatesVar ch self identifier (Descent.assigned ch self.budget name ls)
      (self.parseValue ch identifier) := by
  have hexpr := parseExpression_simulates 0 h
  rw [show (0 : UInt8).toNat = 0 from rfl] at hexpr
  unfold Descent.assigned Parser.parseValue
  cases hc : climb (Descent.operators ch) self.budget 0 ls with
  | error e =>
    rw [hc] at hexpr
    show _ = _
    rw [show self.parseExpression ch 0 = .error e from hexpr]
  | ok r =>
    obtain ⟨t, ls'⟩ := r
    rw [hc] at hexpr
    obtain ⟨value, after, hafter, hat, hfollows, hd, hfirst⟩ := hexpr
    simp only [Descent.ended]
    rw [hafter]
    have hsemi := expectTokenType_simulates hat .Semicolon (by decide)
    have hsame : Descent.expect Descent.isSemicolon ls' =
      Descent.expect (fun l => l.kind == .Semicolon) ls' := rfl
    rw [hsame]
    cases he : Descent.expect (fun l => l.kind == .Semicolon) ls' with
    | error e =>
      rw [he] at hsemi
      show _ = _
      simp only [show after.expectTokenType ch .Semicolon = .error e from hsemi]
    | ok r =>
      obtain ⟨s, ls''⟩ := r
      rw [he] at hsemi
      obtain ⟨last, hlast, hatLast, hfLast⟩ := hsemi
      refine ⟨value, last, ?_, hatLast, hfollows.trans hfLast, hd.grows hfLast.grows, hfirst.grows hfLast.grows⟩
      simp only [hlast]

theorem parseEquals_simulates {self : Parser ν} {ls : List Lexeme} (h : At ch self ls)
    (identifier : Pointer) (name : List UInt8) :
    SimulatesVar ch self identifier (Descent.named ch self.budget name ls)
      (self.parseEquals ch identifier) := by
  cases ls with
  | nil =>
    show self.parseEquals ch identifier = .error .missing
    rw [Parser.parseEquals, h.next_nil.1]
  | cons l ls =>
    obtain ⟨token, after, ht⟩ := h.takes
    simp only [Descent.named, Descent.expect]
    by_cases heq : Descent.isEquals l = true
    · have hne : l.text ≠ [] := by
        intro hnil
        simp only [Descent.isEquals, hnil] at heq
        exact absurd heq (by decide)
      have hstep : self.parseEquals ch identifier = after.parseValue ch identifier := by
        simp only [Parser.parseEquals, ht.next, Parser.checkTokenStr, ht.slice]
        rw [show (l.text == ascii "=") = true from heq]
        rfl
      have hvalue := parseValue_simulates (ht.stands hne) identifier name
      rw [ht.follows.budget] at hvalue
      rw [hstep, if_pos heq]
      exact hvalue.behind ht
    · rw [if_neg heq]
      show self.parseEquals ch identifier = .error .invalid
      simp only [Parser.parseEquals, ht.next, Parser.checkTokenStr, ht.slice]
      rw [show (l.text == ascii "=") = false by simpa [Descent.isEquals] using heq]
      rfl

variable (ch) in
/-- The same for a statement. Its identifier is the first node it appends, in the
buffer that is current then, and the first operand of its value the second. -/
def SimulatesStatement (before : Parser ν) (abstract : Except Error (Statement ν × List Lexeme))
    (concrete : Except Error (Ast ν × Parser ν)) : Prop :=
  match abstract with
  | .error e => concrete = .error e
  | .ok (s, ls) => ∃ identifier value after, concrete = .ok (.Var identifier value, after) ∧
      At ch after ls ∧ Follows before after s.size ∧
      Denotes after.nodes identifier (.identifier s.name) ∧ Denotes after.nodes value s.value ∧
      (before.nodes.Started 100 → before.nodes.items.length < 100 → identifier.generation = 0) ∧
      (before.nodes.Started 100 → before.nodes.items.length + 1 < 100 →
        ∃ q, Leftmost after.nodes value q ∧ q.generation = 0)

/-- A token taken off before the rest of the statement appends nothing. -/
theorem SimulatesStatement.behind {self after : Parser ν} {l : Lexeme} {ls : List Lexeme} {token : Token}
    {abstract : Except Error (Statement ν × List Lexeme)} {concrete : Except Error (Ast ν × Parser ν)}
    (h : SimulatesStatement ch after abstract concrete) (ht : Takes ch self l ls token after) :
    SimulatesStatement ch self abstract concrete := by
  cases abstract with
  | error e => exact h
  | ok r =>
    obtain ⟨identifier, value, last, hlast, hat, hfollows, hdi, hdv, hfirst, hsecond⟩ := h
    have hall := ht.follows.trans hfollows
    rw [Nat.zero_add] at hall
    rw [ht.nodes] at hfirst hsecond
    exact ⟨identifier, value, last, hlast, hat, hall, hdi, hdv, hfirst, hsecond⟩

theorem parseDeclared_simulates {self : Parser ν} {ls : List Lexeme} (h : At ch self ls) :
    SimulatesStatement ch self (Descent.declared ch self.budget ls) (self.parseDeclared ch) := by
  have hname := parseIdentifier_simulates h
  unfold Descent.declared Parser.parseDeclared
  cases hi : Descent.expect Descent.isIdentifier ls with
  | error e =>
    rw [hi] at hname
    rw [show self.parseIdentifier ch = .error e from hname]
    rfl
  | ok r =>
    obtain ⟨i, ls⟩ := r
    rw [hi] at hname
    obtain ⟨identifier, named, hnamed, hat, hfirst, hd, _⟩ := hname
    rw [hnamed]
    have hequals := parseEquals_simulates hat identifier i.text
    rw [hfirst.budget] at hequals
    simp only
    cases hn : Descent.named ch self.budget i.text ls with
    | error e =>
      rw [hn] at hequals
      exact hequals
    | ok r =>
      obtain ⟨s, ls'⟩ := r
      rw [hn] at hequals
      obtain ⟨value, last, hlast, hatLast, hfLast, hdLast, q, hq, hgen⟩ := hequals
      refine ⟨identifier, value, last, hlast, hatLast, ?_, ?_, hdLast, ?_, ?_⟩
      · have := hfirst.trans hfLast
        rw [Tree.size, Nat.add_comm] at this
        exact this
      · rw [Descent.named_name hn]
        exact hd.grows hfLast.grows
      · intro hs hlen
        have hgen := hfirst.generation_eq_zero hs hlen
        have := hd.generation_le
        omega
      · intro hs hlen
        exact ⟨q, hq, hgen (hfirst.started hs) (by rw [hfirst.length]; exact hlen)⟩

theorem parseStatement_simulates {self : Parser ν} {ls : List Lexeme} (h : At ch self ls) :
    SimulatesStatement ch self (Descent.statement ch self.budget ls) (self.parseStatement ch) := by
  rw [parseStatement_eq]
  cases ls with
  | nil =>
    rw [h.next_nil.1]
    rfl
  | cons v ls =>
    obtain ⟨token, after, ht⟩ := h.takes
    rw [ht.next]
    simp only [ht.kind, Parser.checkTokenStr, ht.slice, Descent.statement, Descent.expect]
    by_cases hv : Descent.isVarWord v = true
    · obtain ⟨hkind, htext⟩ : v.kind = .Identifier ∧ v.text = ascii "var" := by
        simpa [Descent.isVarWord] using hv
      have hne : v.text ≠ [] := by
        rw [htext]
        decide
      have hdeclared := parseDeclared_simulates (ht.stands hne)
      rw [ht.follows.budget] at hdeclared
      simp only [hkind, htext, hv, if_true, beq_self_eq_true, Bool.not_true, Bool.false_eq_true, if_false]
      exact hdeclared.behind ht
    · simp only [hv]
      by_cases hkind : v.kind = .Identifier
      · have htext : (v.text == ascii "var") = false := by
          cases hvt : (v.text == ascii "var") with
          | false => rfl
          | true => exact absurd (by simp [Descent.isVarWord, hkind, eq_of_beq hvt]) hv
        simp only [hkind, htext]
        rfl
      · simp only
        rfl

/-- The name of a `Var` and the first operand of its value are in the first buffer. -/
def InFirstBuffer (nodes : ArrayList (Ast ν)) (node : Ast ν) : Prop :=
  ∀ identifier value, node = .Var identifier value →
    identifier.generation = 0 ∧ ∃ q, Leftmost nodes value q ∧ q.generation = 0

/-- **The statement loop refines the descent.** The statements it adds to `items` are
the descent's, and the first of all is in the first buffer. -/
theorem parseStatements_simulates (m : Nat) {self : Parser ν} {ls : List Lexeme}
    (items : List (Ast ν)) (h : At ch self ls) :
    match Descent.program ch self.budget m ls with
    | .error e => Parser.parseStatements ch m items self = .error e
    | .ok ss => ∃ added after,
        Parser.parseStatements ch m items self = .ok (items ++ added, after) ∧
        Follows self after (pushedBy ss) ∧ List.Forall₂ (IsVar after.nodes) added ss ∧
        (self.nodes.Started 100 → self.nodes.items.length + 1 < 100 →
          ∀ node, added.head? = some node → InFirstBuffer after.nodes node) := by
  induction m generalizing self ls items with
  | zero => rfl
  | succ m ih =>
    cases ls with
    | nil =>
      simp only [Descent.program, Parser.parseStatements, h.next_nil.2]
      exact ⟨[], self, by rw [List.append_nil], .of_nodes rfl rfl, .nil, by simp⟩
    | cons l ls =>
      obtain ⟨token, _, ht⟩ := h.takes
      have hstmt := parseStatement_simulates h
      simp only [Descent.program, Parser.parseStatements, ht.peek]
      cases hs : Descent.statement ch self.budget (l :: ls) with
      | error e =>
        rw [hs] at hstmt
        rw [show self.parseStatement ch = .error e from hstmt]
      | ok r =>
        obtain ⟨s, ls'⟩ := r
        rw [hs] at hstmt
        obtain ⟨identifier, value, after, hafter, hat, hfollows, hdi, hdv, hfirst, hsecond⟩ := hstmt
        simp only
        rw [hafter]
        have hrest := ih (items ++ [.Var identifier value]) hat
        rw [hfollows.budget] at hrest
        cases hp : Descent.program ch self.budget m ls' with
        | error e =>
          rw [hp] at hrest
          exact hrest
        | ok ss =>
          rw [hp] at hrest
          obtain ⟨added, last, hlast, hfLast, hvars, _⟩ := hrest
          refine ⟨.Var identifier value :: added, last, ?_, ?_, ?_, ?_⟩
          · rw [List.append_assoc] at hlast
            exact hlast
          · have := hfollows.trans hfLast
            simpa [pushedBy] using this
          · exact .cons ⟨hdi.grows hfLast.grows, hdv.grows hfLast.grows⟩ hvars
          · intro hs hlen node hhead identifier' value' hnode
            cases hhead
            cases hnode
            obtain ⟨q, hq, hgen⟩ := hsecond hs hlen
            exact ⟨hfirst hs (by omega), q, hq.grows hfLast.grows, hgen⟩

/-- What the statement loop has built when it ends: the `Var` nodes of `ss` over the
node list `nodes`. -/
structure Built (nodes : ArrayList (Ast ν)) (items : List (Ast ν)) (ss : List (Statement ν)) : Prop where
  vars : List.Forall₂ (IsVar nodes) items ss
  length : nodes.items.length = pushedBy ss
  started : nodes.Started 100
  first : ∀ node, items.head? = some node → InFirstBuffer nodes node

variable (ch) in
theorem parseStatements_init {input : List UInt8} {ls : List Lexeme} (h : Reads ch.isNumeric input ls) :
    match Descent.program ch (input.length + 2) (input.length + 2) ls with
    | .error e => (Parser.init input).parseStatements ch (input.length + 2) [] = .error e
    | .ok ss => ∃ items after,
        (Parser.init input).parseStatements ch (input.length + 2) [] = .ok (items, after) ∧
        Built after.nodes items ss := by
  have hsim := parseStatements_simulates (input.length + 2) [] (at_init h)
  have hbudget : (Parser.init input : Parser ν).budget = input.length + 2 := rfl
  rw [hbudget] at hsim
  cases hp : Descent.program ch (input.length + 2) (input.length + 2) ls with
  | error e =>
    rw [hp] at hsim
    exact hsim
  | ok ss =>
    rw [hp] at hsim
    obtain ⟨added, after, hafter, hfollows, hvars, hfirst⟩ := hsim
    have hstart : (Parser.init input : Parser ν).nodes.Started 100 := ArrayList.started_initCapacity 100
    refine ⟨added, after, hafter, hvars, ?_, hfollows.started hstart, hfirst hstart (Nat.succ_lt_succ (Nat.zero_lt_succ 98))⟩
    rw [hfollows.length]
    exact Nat.zero_add _

/-- **The statement loop reads exactly the programs**, and builds their nodes. -/
theorem parse_program {input : List UInt8} {ls : List Lexeme} (h : Reads ch.isNumeric input ls)
    (ss : List (Statement ν)) :
    Descent.Program ch ls ss ↔ ∃ items after,
      (Parser.init input).parseStatements ch (input.length + 2) [] = .ok (items, after) ∧
      Built after.nodes items ss := by
  have hlen := h.length_le
  have hinit := parseStatements_init ch h
  rw [← Descent.program_iff (n := input.length + 2) (m := input.length + 2) (by omega) (by omega)]
  cases hp : Descent.program ch (input.length + 2) (input.length + 2) ls with
  | error e =>
    rw [hp] at hinit
    simp only at hinit
    rw [hinit]
    simp
  | ok ss' =>
    rw [hp] at hinit
    obtain ⟨items, after, hafter, hbuilt⟩ := hinit
    constructor
    · intro hss
      cases hss
      exact ⟨items, after, hafter, hbuilt⟩
    · rintro ⟨items', after', hafter', hbuilt'⟩
      rw [hafter] at hafter'
      cases hafter'
      rw [forall₂_isVar_unique hbuilt.vars hbuilt'.vars]

end CompilingToAssembly
